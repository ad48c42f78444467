/-
  Micro80.Proofs.Dedicated — the registers that arithmetic does not reach: the alternate
  pairs, the interrupt page, the refresh counter, the flip-flops and the interrupt mode.
  Each has instructions of its own, and no other action changes it (`perform_dedicated`).

  Proved, for every bus, either dialect and everything that a host can do:
  - `flip_flops_and_mode`: a processor that was new once has its two flip-flops equal and
    one of three interrupt modes. In the smaller dialect the registers that it does not
    have are zero.
-/

import Micro80.Proofs.Hosting
import Micro80.Proofs.Symmetry

namespace Micro80

structure Dedicated where
  afAlt : Word
  bcAlt : Word
  deAlt : Word
  hlAlt : Word
  i : Byte
  r : Byte
  iff1 : Bool
  iff2 : Bool
  im : Byte

namespace Registers

variable (r : Registers)

def dedicated : Dedicated := ⟨r.afAlt, r.bcAlt, r.deAlt, r.hlAlt, r.i, r.r, r.iff1, r.iff2, r.im⟩

theorem dedicated_set (x : Reg) (v : Byte) : (r.set x v).dedicated = r.dedicated := by
  cases x <;> rfl

theorem dedicated_setPointer (x : Pointer) (w : Word) : (r.setPointer x w).dedicated = r.dedicated := by
  cases x <;> rfl

theorem dedicated_setPair (x : Pointer) (p : Pair) (w : Word) : (r.setPair x p w).dedicated = r.dedicated := by
  cases p with
  | hl => exact r.dedicated_setPointer x w
  | bc | de | sp | af => rfl

end Registers

/-! ## Actions -/

namespace Action

def dedicated (r : Registers) : Action → Dedicated
  | exchangeAf => { r.dedicated with afAlt := r.af }
  | exchangeMain => { r.dedicated with bcAlt := r.bc, deAlt := r.de, hlAlt := r.hl }
  | storeInterruptPage => { r.dedicated with i := r.a }
  | storeRefresh => { r.dedicated with r := r.a }
  | retInterrupt => { r.dedicated with iff1 := r.iff2 }
  | setInterrupts enabled => { r.dedicated with iff1 := enabled, iff2 := enabled }
  | setInterruptMode mode => { r.dedicated with im := mode }
  | _ => r.dedicated

theorem perform_dedicated {β : Type} [PortBus β] (a : Action) (s : Site) (m : Machine β) :
    (a.perform s m).2.regs.dedicated = a.dedicated m.regs := by
  obtain ⟨start, operands, next, x⟩ := s
  cases a with
  | load dst src =>
    cases dst with
    | reg r => cases src <;> cases x <;> exact Registers.dedicated_set _ r _
    | cell => cases src <;> cases x <;> rfl
  | loadImmediate dst | increment dst | decrement dst =>
    cases dst with
    | reg r => exact Registers.dedicated_set _ r _
    | cell => cases x <;> rfl
  | combine op src => cases src <;> cases x <;> rfl
  | input dst => exact Registers.dedicated_set _ dst _
  | loadPairImmediate p | fetchPairAbsolute p | incrementPair p | decrementPair p | pop p =>
    exact Registers.dedicated_setPair _ x p _
  | exchangeStack | addPair src => exact Registers.dedicated_setPointer _ x _
  | callIf cc =>
    by_cases h : cc.holds m.regs.f = true
    · rw [perform_callIf h]
      rfl
    · rw [perform_callIf_skip h]
      rfl
  | retIf cc =>
    by_cases h : cc.holds m.regs.f = true
    · rw [perform_retIf h]
      rfl
    · rw [perform_retIf_skip h]
      rfl
  | _ => rfl

/-- Whether the smaller dialect has the registers that an action changes. -/
def isBasic : Action → Bool
  | exchangeAf | exchangeMain | storeInterruptPage | storeRefresh | retInterrupt | setInterruptMode _ => false
  | _ => true

end Action

namespace Cpu

variable {β : Type} [PortBus β]

/-- The program counter is not one of them. -/
theorem dedicated_execute (i : Instruction) (c : Cpu β) :
    (execute i c).2.regs.dedicated = i.descriptor.action.dedicated (c.regs.refresh i.page.width) :=
  i.descriptor.action.perform_dedicated (i.site c.regs.pc) ⟨c.regs.refresh i.page.width, c.bus⟩

end Cpu

/-! ## The pages -/

section
variable {p : Page} {opcode : Byte} {d : Descriptor}

theorem mode_cases_of_slot (h : p.slot opcode = .instruction d) {mode : Byte} (ha : d.action = .setInterruptMode mode) :
    mode = 0 ∨ mode = 1 ∨ mode = 2 := by
  have checked : ∀ o, (p.slot o).all (fun d => match d.action with
      | .setInterruptMode mode => mode = 0 ∨ mode = 1 ∨ mode = 2
      | _ => true) = true := by
    cases p <;> decide +kernel
  have hm := Slot.of_all (checked opcode) h
  rw [ha] at hm
  exact of_decide_eq_true hm

theorem isBasic_of_slot (h : p.slot opcode = .instruction d) (hd : (d.spelling? .i8080).isSome = true) :
    d.action.isBasic = true := by
  have checked : ∀ o, (p.slot o).all (fun d => (d.spelling? .i8080).isSome = true → d.action.isBasic = true) = true := by
    cases p <;> decide +kernel
  exact of_decide_eq_true (Slot.of_all (checked opcode) h) hd

end

/-! ## What no program can break -/

/-- The registers that the smaller dialect does not have are zero. -/
def Registers.IsBasic (r : Registers) : Prop :=
  r.afAlt = 0 ∧ r.bcAlt = 0 ∧ r.deAlt = 0 ∧ r.hlAlt = 0 ∧ r.ix = 0 ∧ r.iy = 0 ∧ r.i = 0 ∧ r.im = 0

namespace Action

variable {r : Registers}

/-- Both flip-flops are set at once, or the first is set to the second. -/
theorem iff_dedicated (h : r.iff1 = r.iff2) (a : Action) : (a.dedicated r).iff1 = (a.dedicated r).iff2 := by
  cases a with
  | setInterrupts enabled | retInterrupt => rfl
  | _ => exact h

theorem im_dedicated (r : Registers) (a : Action) :
    (a.dedicated r).im = r.im ∨ a = .setInterruptMode (a.dedicated r).im := by
  cases a with
  | setInterruptMode mode => exact .inr rfl
  | _ => exact .inl rfl

/-- Of the dedicated registers an action of the smaller dialect changes the flip-flops at most. -/
theorem dedicated_of_isBasic {a : Action} (h : a.isBasic = true) (r : Registers) :
    ∃ iff1 iff2, a.dedicated r = { r.dedicated with iff1, iff2 } := by
  cases a with
  | exchangeAf | exchangeMain | storeInterruptPage | storeRefresh | retInterrupt | setInterruptMode mode => cases h
  | setInterrupts enabled => exact ⟨enabled, enabled, rfl⟩
  | _ => exact ⟨r.iff1, r.iff2, rfl⟩

end Action

namespace Cpu

variable {β : Type}

structure Sound (c : Cpu β) : Prop where
  flipFlops : c.regs.iff1 = c.regs.iff2
  mode : c.regs.im = 0 ∨ c.regs.im = 1 ∨ c.regs.im = 2
  basic : c.dialect = .i8080 → c.regs.IsBasic

theorem new_sound (d : Dialect) (b : β) : (new d b).Sound where
  flipFlops := rfl
  mode := .inl rfl
  basic _ := ⟨rfl, rfl, rfl, rfl, rfl, rfl, rfl, rfl⟩

variable [PortBus β] {c : Cpu β}

theorem isBasic_execute {i : Instruction} (hp : i.page = .base) (ha : i.descriptor.action.isBasic = true)
    (h : c.regs.IsBasic) : (execute i c).2.regs.IsBasic := by
  have hx : (i.site c.regs.pc).pointer = .hl := congrArg Page.pointer hp
  have hix : (execute i c).2.regs.ix = c.regs.ix :=
    i.descriptor.action.ix_perform ⟨c.regs.refresh i.page.width, c.bus⟩ (by rw [hx]; nofun)
  have hiy : (execute i c).2.regs.iy = c.regs.iy :=
    i.descriptor.action.iy_perform ⟨c.regs.refresh i.page.width, c.bus⟩ (by rw [hx]; nofun)
  obtain ⟨iff1, iff2, hk⟩ := Action.dedicated_of_isBasic ha (c.regs.refresh i.page.width)
  rw [← dedicated_execute] at hk
  simp only [Registers.dedicated, Dedicated.mk.injEq] at hk
  obtain ⟨haf, hbc, hde, hhl, hi, -, -, -, him⟩ := hk
  rw [Registers.IsBasic, haf, hbc, hde, hhl, hix, hiy, hi, him]
  exact h

/-- What is performed has a place in a page; in the smaller dialect that is the base page. -/
theorem execute_sound {i : Instruction} {opcode : Byte} (hs : i.page.slot opcode = .instruction i.descriptor)
    (hb : c.dialect = .i8080 → i.page = .base ∧ i.descriptor.action.isBasic = true) (h : c.Sound) :
    (execute i c).2.Sound := by
  have hk := dedicated_execute i c
  refine ⟨?_, ?_, ?_⟩
  · have hiff := Action.iff_dedicated (r := c.regs.refresh i.page.width) h.flipFlops i.descriptor.action
    rw [← hk] at hiff
    exact hiff
  · have him := Action.im_dedicated (c.regs.refresh i.page.width) i.descriptor.action
    rw [← hk] at him
    rcases him with him | ha
    · rw [show (execute i c).2.regs.im = c.regs.im from him]
      exact h.mode
    · exact mode_cases_of_slot hs ha
  · intro hd
    obtain ⟨hp, ha⟩ := hb hd
    exact isBasic_execute hp ha (h.basic hd)

theorem step_sound (h : c.Sound) : c.step.2.Sound := by
  rcases c.invalid_or_execute with ⟨opcode, -, hs⟩ | ⟨i, hd, hs⟩
  · rw [hs]
    exact ⟨h.flipFlops, h.mode, h.basic⟩
  · obtain ⟨hspelled, hplace⟩ := decode_cases hd
    obtain ⟨opcode, hslot⟩ := exists_slot_of_decode hd
    rw [hs]
    refine execute_sound hslot ?_ ⟨h.flipFlops, h.mode, h.basic⟩
    intro h8080
    rw [show c.dialect = .i8080 from h8080] at hspelled hplace
    rcases hplace with ⟨hp, -⟩ | ⟨hz, -⟩
    · exact ⟨hp, isBasic_of_slot hslot hspelled⟩
    · cases hz

theorem handle_sound (h : c.Sound) (e : Event β) : (c.handle e).Sound := by
  cases e with
  | step => exact step_sound h
  | reset cold =>
    cases cold with
    | true => exact ⟨rfl, .inl rfl, fun _ => ⟨rfl, rfl, rfl, rfl, rfl, rfl, rfl, rfl⟩⟩
    | false =>
      refine ⟨rfl, .inl rfl, fun hd => ?_⟩
      obtain ⟨haf, hbc, hde, hhl, hix, hiy, -, -⟩ := h.basic hd
      exact ⟨haf, hbc, hde, hhl, hix, hiy, rfl, rfl⟩
  | setPc a => exact ⟨h.flipFlops, h.mode, h.basic⟩
  | change g => exact ⟨h.flipFlops, h.mode, h.basic⟩

theorem through_sound (events : List (Event β)) (h : c.Sound) : (c.through events).Sound := by
  induction events generalizing c with
  | nil => exact h
  | cons e events ih => exact ih (handle_sound h e)

/-- Whatever is done with a processor that was new, its flip-flops are equal and its interrupt
    mode is one of three; in the smaller dialect the registers of the larger one stay zero. -/
theorem flip_flops_and_mode (d : Dialect) (b : β) (events : List (Event β)) :
    let c := (new d b).through events
    c.regs.iff1 = c.regs.iff2 ∧ (c.regs.im = 0 ∨ c.regs.im = 1 ∨ c.regs.im = 2) ∧
      (d = .i8080 → c.regs.afAlt = 0 ∧ c.regs.bcAlt = 0 ∧ c.regs.deAlt = 0 ∧ c.regs.hlAlt = 0 ∧
        c.regs.ix = 0 ∧ c.regs.iy = 0 ∧ c.regs.i = 0 ∧ c.regs.im = 0) := by
  intro c
  have h : c.Sound := through_sound events (new_sound d b)
  refine ⟨h.flipFlops, h.mode, fun hd => h.basic ?_⟩
  rw [show c.dialect = d from dialect_through (new d b) events, hd]

end Cpu

end Micro80
