/-
  Micro80.Proofs.Tracking — what an action does where the registers have changed places.
  One effect tracks another through a change of the registers when doing it behind the
  change is doing the other and then the change (`Effect.Tracks`): the result is the same
  and so is every access to the bus, whatever the bus. Tracking goes through the steps of
  an effect one by one, so that no action needs to be run.

  Proved, for every bus, every state and every operand:
  - `Action.tracks_of_isWide`: an action on pairs alone tracks itself where another pair
    has taken the pointer's place.
  - `Action.tracks_recast`: every action tracks itself where the index registers and the
    program counter are changed, as long as the pointer is found again.
-/

import Micro80.Proofs.Flat

namespace Micro80

/-! ## Through a change of the registers -/

def Machine.map {β : Type} (φ : Registers → Registers) (m : Machine β) : Machine β := ⟨φ m.regs, m.bus⟩

namespace Effect

/-- To do `y` behind `φ` is to do `x` and then `φ`, with the same result and the same accesses. -/
def Tracks {β α : Type} (φ : Registers → Registers) (x y : Effect β α) : Prop :=
  ∀ m : Machine β, y (m.map φ) = ((x m).1, (x m).2.map φ)

namespace Tracks

variable {β α γ : Type} {φ : Registers → Registers}

theorem pure (v : α) : Tracks φ (Pure.pure v : Effect β α) (Pure.pure v) := fun _ => rfl

theorem bind {x y : Effect β α} {f f' : α → Effect β γ} (hx : Tracks φ x y) (hf : ∀ v, Tracks φ (f v) (f' v)) :
    Tracks φ (x >>= f) (y >>= f') := by
  intro m
  rw [bind_apply, bind_apply, hx m]
  exact hf _ _

/-- What is done with the registers in view may be done with those behind `φ` in view. -/
theorem regs_bind {f f' : Registers → Effect β γ} (hf : ∀ r, Tracks φ (f r) (f' (φ r))) :
    Tracks φ (regs >>= f) (regs >>= f') :=
  fun m => hf m.regs m

theorem modifyRegs {ψ ψ' : Registers → Registers} (h : ∀ r, ψ' (φ r) = φ (ψ r)) :
    Tracks φ (Effect.modifyRegs ψ : Effect β Unit) (Effect.modifyRegs ψ') :=
  fun m => congrArg (fun r => ((), (⟨r, m.bus⟩ : Machine β))) (h m.regs)

theorem ite {c : Prop} [Decidable c] {x y x' y' : Effect β α} (h : Tracks φ x y) (h' : Tracks φ x' y') :
    Tracks φ (if c then x else x') (if c then y else y') := by
  by_cases hc : c
  · rwa [if_pos hc, if_pos hc]
  · rwa [if_neg hc, if_neg hc]

theorem read [Bus β] (a : Word) : Tracks φ (Effect.read a : Effect β Byte) (Effect.read a) := fun _ => rfl

theorem write [Bus β] (a : Word) (v : Byte) : Tracks φ (Effect.write a v : Effect β Unit) (Effect.write a v) :=
  fun _ => rfl

theorem input [PortBus β] (p : Byte) : Tracks φ (Effect.input p : Effect β Byte) (Effect.input p) := fun _ => rfl

theorem output [PortBus β] (p v : Byte) : Tracks φ (Effect.output p v : Effect β Unit) (Effect.output p v) :=
  fun _ => rfl

theorem readWord [Bus β] (a : Word) : Tracks φ (Effect.readWord a : Effect β Word) (Effect.readWord a) := fun _ => rfl

theorem writeWord [Bus β] (a w : Word) : Tracks φ (Effect.writeWord a w : Effect β Unit) (Effect.writeWord a w) :=
  fun _ => rfl

end Tracks

end Effect

/-! ## Another pair in the pointer's place -/

/-- Behind `φ`, `y` is what `x` is before it, and nothing else changes of pairs and flags: to
    read it and to write it. -/
structure Pointer.Becomes (φ : Registers → Registers) (x y : Pointer) : Prop where
  pair : ∀ (r : Registers) (p : Pair), (φ r).pair y p = r.pair x p
  setPair : ∀ (r : Registers) (p : Pair) (w : Word), (φ r).setPair y p w = φ (r.setPair x p w)
  flags : ∀ r : Registers, (φ r).f = r.f
  setFlags : ∀ (r : Registers) (f : Flags), { φ r with f } = φ { r with f }

def Action.isWide : Action → Bool
  | loadPairImmediate _ | storePairAbsolute _ | fetchPairAbsolute _ | loadStackPointer | push _ | pop _
  | exchangeStack | incrementPair _ | decrementPair _ | addPair _ | jumpPointer => true
  | _ => false

namespace Pointer.Becomes

variable {φ : Registers → Registers} {x y : Pointer} (h : Becomes φ x y)
include h

theorem pointer (r : Registers) : (φ r).pointer y = r.pointer x := h.pair r .hl

theorem setPointer (r : Registers) (w : Word) : (φ r).setPointer y w = φ (r.setPointer x w) := h.setPair r .hl w

theorem sp (r : Registers) : (φ r).sp = r.sp := h.pair r .sp

theorem setSp (r : Registers) (w : Word) : { φ r with sp := w } = φ { r with sp := w } := h.setPair r .sp w

end Pointer.Becomes

namespace Action

open Effect (Tracks)

section
variable {β : Type} {φ : Registers → Registers} {s : Site} {x y : Pointer}

theorem tracks_sumPairs (h : Pointer.Becomes φ s.pointer y) (g : Flags → Word → Word → Word × Flags) (src : Pair) :
    Tracks φ (sumPairs g s s.pointer src : Effect β Unit) (sumPairs g { s with pointer := y } y src) := by
  refine .modifyRegs fun r => ?_
  rw [h.flags, h.pointer, h.pair]
  obtain ⟨w, f⟩ := g r.f (r.pointer s.pointer) (r.pair s.pointer src)
  simp only [h.setFlags, h.setPointer]

variable [PortBus β]

theorem tracks_push (h : Pointer.Becomes φ x y) (w : Word) :
    Tracks φ (Effect.push w : Effect β Unit) (Effect.push w) := by
  refine .regs_bind fun r => ?_
  rw [h.sp]
  exact .bind (.write _ _) fun _ => .bind (.write _ _) fun _ => .modifyRegs fun r => h.setSp r _

theorem tracks_pop (h : Pointer.Becomes φ x y) : Tracks φ (Effect.pop : Effect β Word) Effect.pop := by
  refine .regs_bind fun r => ?_
  rw [h.sp]
  exact .bind (.readWord _) fun w => .bind (.modifyRegs fun r => h.setSp r _) fun _ => .pure w

/-- An action on pairs has to do with `y` behind `φ` what it has to do with the pointer before. -/
theorem tracks_of_isWide (h : Pointer.Becomes φ s.pointer y) {a : Action} (ha : a.isWide = true) :
    Tracks φ (a.perform s : Effect β Outcome) (a.perform { s with pointer := y }) := by
  cases a with
  | loadPairImmediate p =>
    exact .bind (.readWord _) fun w => .bind (.modifyRegs fun r => h.setPair r p w) fun _ => .pure _
  | storePairAbsolute p =>
    refine .bind (.readWord _) fun a => .regs_bind fun r => ?_
    rw [h.pair]
    exact .bind (.writeWord _ _) fun _ => .pure _
  | fetchPairAbsolute p =>
    exact .bind (.readWord _) fun a => .bind (.readWord a) fun w => .bind (.modifyRegs fun r => h.setPair r p w)
      fun _ => .pure _
  | loadStackPointer =>
    refine .bind (.modifyRegs fun r => ?_) fun _ => .pure _
    rw [h.pointer, h.setSp]
  | push p =>
    refine .regs_bind fun r => ?_
    rw [h.pair]
    exact .bind (tracks_push h _) fun _ => .pure _
  | pop p => exact .bind (tracks_pop h) fun w => .bind (.modifyRegs fun r => h.setPair r p w) fun _ => .pure _
  | exchangeStack =>
    refine .regs_bind fun r => ?_
    rw [h.sp, h.pointer]
    exact .bind (.readWord _) fun w => .bind (.writeWord _ _) fun _ => .bind (.modifyRegs fun r => h.setPointer r w)
      fun _ => .pure _
  | incrementPair p | decrementPair p =>
    refine .bind (.modifyRegs fun r => ?_) fun _ => .pure _
    rw [h.pair, h.setPair]
  | addPair p => exact .bind (tracks_sumPairs h _ _) fun _ => .pure _
  | jumpPointer =>
    refine .regs_bind fun r => ?_
    rw [h.pointer]
    exact .pure _
  | _ => cases ha

end

end Action

/-! ## Registers that are not named -/

/-- The registers that no action names: two are reached through the pointer alone, and the
    program counter is the processor's. -/
structure Unnamed where
  ix : Word
  iy : Word
  pc : Word

namespace Registers

def unnamed (r : Registers) : Unnamed := ⟨r.ix, r.iy, r.pc⟩

def recast (g : Unnamed → Unnamed) (r : Registers) : Registers :=
  { r with ix := (g r.unnamed).ix, iy := (g r.unnamed).iy, pc := (g r.unnamed).pc }

variable (g : Unnamed → Unnamed) (r : Registers)

theorem get_recast (x : Reg) : (r.recast g).get x = r.get x := by
  cases x <;> rfl

theorem set_recast (x : Reg) (v : Byte) : (r.recast g).set x v = (r.set x v).recast g := by
  cases x <;> rfl

end Registers

/-- HL and the index registers are told apart when operands are looked for; behind `g`, `y` is
    what `x` is before it. -/
structure Pointer.Recast (g : Unnamed → Unnamed) (x y : Pointer) : Prop where
  hl_iff : x = .hl ↔ y = .hl
  get : ∀ r : Registers, (r.recast g).pointer y = r.pointer x
  set : ∀ (r : Registers) (w : Word), (r.recast g).setPointer y w = (r.setPointer x w).recast g

theorem Pointer.Recast.becomes {g : Unnamed → Unnamed} {x y : Pointer} (h : Recast g x y) :
    Becomes (Registers.recast g) x y where
  pair r p := by
    cases p with
    | hl => exact h.get r
    | bc | de | sp | af => rfl
  setPair r p w := by
    cases p with
    | hl => exact h.set r w
    | bc | de | sp | af => rfl
  flags _ := rfl
  setFlags _ _ := rfl

namespace Effect

variable {β : Type} [PortBus β] {g : Unnamed → Unnamed} {s : Site} {y : Pointer} (h : Pointer.Recast g s.pointer y)
include h

theorem tracks_immediate :
    Tracks (Registers.recast g) (immediate s : Effect β Byte) (immediate { s with pointer := y }) := by
  unfold immediate
  simp only [h.hl_iff]
  exact .read _

theorem tracks_cellAddress :
    Tracks (Registers.recast g) (cellAddress s : Effect β Word) (cellAddress { s with pointer := y }) := by
  obtain ⟨start, operands, next, x⟩ := s
  have hdisplaced : Tracks (Registers.recast g)
      (do let d ← read operands; return ((← regs).pointer x).displace d : Effect β Word)
      (do let d ← read operands; return ((← regs).pointer y).displace d) := by
    refine .bind (.read _) fun d => .regs_bind fun r => ?_
    rw [h.get r]
    exact .pure _
  cases x with
  | hl =>
    cases h.hl_iff.mp rfl
    exact fun m => rfl
  | ix | iy =>
    cases y with
    | hl => cases h.hl_iff.mpr rfl
    | ix | iy => exact hdisplaced

theorem tracks_get (p : Place) :
    Tracks (Registers.recast g) (get s p : Effect β Byte) (get { s with pointer := y } p) := by
  cases p with
  | reg x =>
    refine .regs_bind fun r => ?_
    rw [Registers.get_recast]
    exact .pure _
  | cell => exact .bind (tracks_cellAddress h) fun a => .read a

theorem tracks_set (v : Byte) (p : Place) :
    Tracks (Registers.recast g) (set s v p : Effect β Unit) (set { s with pointer := y } v p) := by
  cases p with
  | reg x =>
    unfold set
    exact .modifyRegs fun r => Registers.set_recast g r x v
  | cell => exact .bind (tracks_cellAddress h) fun a => .write a v

theorem tracks_update (op : Flags → Byte → Byte × Flags) (p : Place) :
    Tracks (Registers.recast g) (update s op p : Effect β Unit) (update { s with pointer := y } op p) := by
  cases p with
  | reg x =>
    unfold update
    refine .modifyRegs fun r => ?_
    rw [Registers.get_recast]
    exact Registers.set_recast g { r with f := (op r.f (r.get x)).2 } x (op r.f (r.get x)).1
  | cell =>
    refine .bind (tracks_cellAddress h) fun a => .regs_bind fun r => .bind (.read a) fun v => ?_
    exact .bind (.modifyRegs fun _ => rfl) fun _ => .write a _

end Effect

namespace Action

open Effect

variable {β : Type} [PortBus β] {g : Unnamed → Unnamed}

/-- No action but the pointer's names an index register, and none the program counter. -/
theorem tracks_recast {s : Site} {y : Pointer} (h : Pointer.Recast g s.pointer y) (a : Action) :
    Tracks (Registers.recast g) (a.perform s : Effect β Outcome) (a.perform { s with pointer := y }) := by
  cases a with
  | load dst src => exact .bind (tracks_get h src) fun v => .bind (tracks_set h v dst) fun _ => .pure _
  | loadImmediate dst => exact .bind (tracks_immediate h) fun v => .bind (tracks_set h v dst) fun _ => .pure _
  | storeIndirect p =>
    refine .regs_bind fun r => ?_
    rw [h.becomes.pair]
    exact .bind (.write _ _) fun _ => .pure _
  | fetchIndirect p =>
    refine .regs_bind fun r => ?_
    rw [h.becomes.pair]
    exact .bind (.read _) fun v => .bind (.modifyRegs fun _ => rfl) fun _ => .pure _
  | increment p | decrement p => exact .bind (tracks_update h _ _) fun _ => .pure _
  | combine op src => exact .bind (tracks_get h src) fun v => .bind (.modifyRegs fun _ => rfl) fun _ => .pure _
  | combineImmediate op => exact .bind (tracks_immediate h) fun v => .bind (.modifyRegs fun _ => rfl) fun _ => .pure _
  | addPairCarry src | subtractPairCarry src =>
    refine .bind (.modifyRegs fun r => ?_) fun _ => .pure _
    rw [h.becomes.pair]
    rfl
  | callIf cc => exact .regs_bind fun r => .ite (fun _ => rfl) (.pure _)
  | retIf cc => exact .regs_bind fun r => .ite (fun _ => rfl) (.pure _)
  | outputImmediate =>
    exact .bind (tracks_immediate h) fun p => .regs_bind fun r => .bind (.output p _) fun _ => .pure _
  | inputImmediate =>
    exact .bind (tracks_immediate h) fun p => .bind (.input p) fun v => .bind (.modifyRegs fun _ => rfl) fun _ =>
      .pure _
  | output x =>
    refine .regs_bind fun r => ?_
    rw [Registers.get_recast]
    exact .bind (.output _ _) fun _ => .pure _
  | input x =>
    refine .regs_bind fun r => .bind (.input _) fun v => .bind (.modifyRegs fun r => ?_) fun _ => .pure _
    exact Registers.set_recast g { r with f := r.f.judgeInput v } x v
  | loadPairImmediate p | storePairAbsolute p | fetchPairAbsolute p | loadStackPointer | push p | pop p
  | exchangeStack | incrementPair p | decrementPair p | addPair p | jumpPointer => exact tracks_of_isWide h.becomes rfl
  | _ => exact fun m => rfl

end Action

end Micro80
