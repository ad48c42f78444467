/-
  Micro80.Proofs.FlagFrame — which flags an instruction leaves alone. The text of an
  instruction says which (`Form.keeps`), and so does what it does (`Action.keeps`, which
  `perform_keeps` bears out); the text promises no more than the action holds
  (`keeps_of_slot`). No action computes the two unused bits: only `pop af` and
  `ex af,af'` change them, and these give every flag the value of a bit of a byte
  (`loadsFlags?`).

  Proved, for every state of either dialect:
  - `flags_frame`: a step leaves the flags alone that the text says it leaves alone, and
    after any session the unused bits are those of the flags last loaded.
-/

import Micro80.Proofs.Decoding
import Micro80.Proofs.Operands
import Micro80.Proofs.Session

namespace Micro80

open Bus (Flat)
open Operand (register port)

/-! ## Flags by name -/

inductive Flag where
  | s | z | y | h | x | pv | n | c
  deriving DecidableEq, Repr

def Flag.all : List Flag := [.s, .z, .y, .h, .x, .pv, .n, .c]

namespace Flags

def bit (f : Flags) : Flag → Bool
  | .s => f.s | .z => f.z | .y => f.y | .h => f.h | .x => f.x | .pv => f.pv | .n => f.n | .c => f.c

/-- Bits 5 and 3. -/
def unused (f : Flags) : Bool × Bool := (f.y, f.x)

theorem eq_of_bits {f g : Flags} (h : ∀ b ∈ Flag.all, f.bit b = g.bit b) : f = g := by
  obtain ⟨s, z, y, hc, x, pv, n, c⟩ := f
  simp only [Flag.all, List.forall_mem_cons, bit] at h
  obtain ⟨rfl, rfl, rfl, rfl, rfl, rfl, rfl, rfl, -⟩ := h
  rfl

end Flags

/-! ## What the text promises -/

namespace Form

def keeps (f : Form) : List Flag :=
  match f.mnemonic with
  | "ld" => if f.src = register "i" ∨ f.src = register "r" then [.c, .y, .x] else Flag.all
  | "ex" | "pop" => if f.dst = register "af" then [] else Flag.all
  | "exx" | "push" | "jp" | "jr" | "djnz" | "call" | "ret" | "reti" | "retn" | "rst" => Flag.all
  | "nop" | "halt" | "di" | "ei" | "im" | "out" => Flag.all
  | "in" => if f.src = port then Flag.all else [.c, .y, .x]
  | "inc" | "dec" => if f.isWide then Flag.all else [.c, .y, .x]
  | "rld" | "rrd" | "cpi" | "cpd" | "cpir" | "cpdr" => [.c, .y, .x]
  | "add" => if f.isWide then [.s, .z, .pv, .y, .x] else [.y, .x]
  | "rlca" | "rrca" | "rla" | "rra" | "scf" | "ccf" => [.s, .z, .pv, .y, .x]
  | "cpl" => [.s, .z, .pv, .c, .y, .x]
  | "daa" => [.n, .y, .x]
  | "ldi" | "ldd" | "ldir" | "lddr" => [.s, .z, .c, .y, .x]
  | _ => [.y, .x]

/-- The flags that an instruction loads as a whole: the byte on top of the stack, or the low
    byte of the alternate pair. -/
def loadsFlags? (f : Form) (r : Registers) (m : Memory) : Option Flags :=
  if f.dst ≠ register "af" then none
  else if f.mnemonic = "pop" then some (Flags.ofByte (m.get r.sp))
  else if f.mnemonic = "ex" then some (Flags.ofByte r.afAlt.low)
  else none

end Form

/-! ## What actions keep -/

namespace Registers

variable (r : Registers)

@[simp] theorem f_set (x : Reg) (v : Byte) : (r.set x v).f = r.f := by
  cases x <;> rfl

@[simp] theorem f_setPointer (x : Pointer) (w : Word) : (r.setPointer x w).f = r.f := by
  cases x <;> rfl

theorem f_setPair {p : Pair} (h : p ≠ .af) (x : Pointer) (w : Word) : (r.setPair x p w).f = r.f := by
  cases p with
  | af => exact absurd rfl h
  | hl => exact r.f_setPointer x w
  | bc | de | sp => rfl

end Registers

@[simp] theorem Machine.f_setByte (m : Machine Flat) (s : Site) (v : Byte) (p : Place) :
    (m.setByte s v p).regs.f = m.regs.f := by
  cases p with
  | reg r => exact m.regs.f_set r v
  | cell => rfl

namespace Action

def keeps : Action → List Flag
  | pop p | loadPairImmediate p | fetchPairAbsolute p | incrementPair p | decrementPair p =>
    if p = .af then [] else Flag.all
  | exchangeAf => []
  | fetchInterruptPage | fetchRefresh | increment _ | decrement _ | rotateDigitsLeft | rotateDigitsRight
  | searchBlock _ | input _ => [.c, .y, .x]
  | addPair _ | setCarry | complementCarry => [.s, .z, .pv, .y, .x]
  | addPairCarry _ | subtractPairCarry _ | combine _ _ | combineImmediate _ => [.y, .x]
  | adjust .daa => [.n, .y, .x]
  | adjust .cpl => [.s, .z, .pv, .c, .y, .x]
  | adjust .neg => [.y, .x]
  | adjust _ => [.s, .z, .pv, .y, .x]
  | copyBlock _ => [.s, .z, .c, .y, .x]
  | _ => Flag.all

/-- Where a pair other than AF is set, all flags are kept. -/
theorem bits_setPair (r : Registers) (x : Pointer) (p : Pair) (w : Word) :
    (if p = .af then [] else Flag.all).map (r.setPair x p w).f.bit = (if p = .af then [] else Flag.all).map r.f.bit := by
  by_cases h : p = .af
  · rw [if_pos h]
    rfl
  · rw [r.f_setPair h]

/-- An action keeps what it says. -/
theorem perform_keeps (a : Action) (s : Site) (m : Machine Flat) :
    a.keeps.map (a.perform s m).2.regs.f.bit = a.keeps.map m.regs.f.bit := by
  cases a with
  | load dst src | loadImmediate dst =>
    simp only [perform, Effect.bind_apply, Effect.get_apply, Effect.immediate_apply, Effect.set_apply,
      Effect.pure_apply, Machine.f_setByte]
  | pop p => exact bits_setPair _ s.pointer p _
  | loadPairImmediate p | fetchPairAbsolute p | incrementPair p | decrementPair p => exact bits_setPair _ s.pointer p _
  | exchangeStack =>
    exact congrArg (fun f : Flags => Flag.all.map f.bit) (m.regs.f_setPointer s.pointer _)
  | increment p | decrement p =>
    simp only [perform, Effect.bind_apply, Effect.update_apply, Effect.pure_apply, Machine.f_setByte]
    rfl
  | addPair src | addPairCarry src | subtractPairCarry src =>
    simp only [perform, sumPairs, Effect.bind_apply, Effect.modifyRegs_apply, Effect.pure_apply, Registers.f_setPointer]
    rfl
  | combine op src =>
    simp only [perform, Effect.bind_apply, Effect.get_apply, Effect.accumulate_apply, Effect.pure_apply]
    cases op <;> rfl
  | combineImmediate op => cases op <;> rfl
  | adjust op => cases op <;> rfl
  | input p =>
    simp only [perform, Effect.bind_apply, Effect.regs_apply, Effect.input_apply, Effect.modifyRegs_apply,
      Effect.pure_apply, Registers.f_set]
    rfl
  | callIf cc =>
    by_cases h : cc.holds m.regs.f = true
    · rw [perform_callIf h]
      rfl
    · rw [perform_callIf_skip h]
  | retIf cc =>
    by_cases h : cc.holds m.regs.f = true
    · rw [perform_retIf h]
      rfl
    · rw [perform_retIf_skip h]
  | _ => rfl

end Action

/-! ## The pages -/

section
variable {p : Page} {opcode : Byte} {d : Descriptor}

/-- The text promises no more than the action holds. -/
theorem keeps_of_slot (h : p.slot opcode = .instruction d) {b : Flag} (hb : b ∈ d.form.keeps) : b ∈ d.action.keeps := by
  have checked : ∀ o, (p.slot o).all (fun d => ∀ b ∈ d.form.keeps, b ∈ d.action.keeps) = true := by
    cases p <;> decide +kernel
  exact of_decide_eq_true (Slot.of_all (checked opcode) h) b hb

/-- An instruction loads all flags, in one of two ways, or keeps the unused bits. -/
theorem loads_or_keeps_of_slot (h : p.slot opcode = .instruction d) :
    d.form = ⟨"pop", register "af", .none⟩ ∧ d.action = .pop .af ∨
      d.form = ⟨"ex", register "af", register "af'"⟩ ∧ d.action = .exchangeAf ∨
      ¬(d.form.dst = register "af" ∧ d.form.mnemonic ∈ ["pop", "ex"]) ∧ .y ∈ d.action.keeps ∧ .x ∈ d.action.keeps := by
  have checked : ∀ o, (p.slot o).all (fun d =>
      d.form = ⟨"pop", register "af", .none⟩ ∧ d.action = .pop .af ∨
        d.form = ⟨"ex", register "af", register "af'"⟩ ∧ d.action = .exchangeAf ∨
        ¬(d.form.dst = register "af" ∧ d.form.mnemonic ∈ ["pop", "ex"]) ∧
          .y ∈ d.action.keeps ∧ .x ∈ d.action.keeps) = true := by
    cases p <;> decide +kernel
  exact of_decide_eq_true (Slot.of_all (checked opcode) h)

end

theorem Form.loadsFlags?_eq_none {f : Form} (h : ¬(f.dst = register "af" ∧ f.mnemonic ∈ ["pop", "ex"]))
    (r : Registers) (m : Memory) : f.loadsFlags? r m = none := by
  unfold loadsFlags?
  by_cases hd : f.dst = register "af"
  · have hm : f.mnemonic ∉ ["pop", "ex"] := fun hm => h ⟨hd, hm⟩
    simp only [List.mem_cons, List.not_mem_nil, or_false, not_or] at hm
    rw [if_neg (not_not_intro hd), if_neg hm.1, if_neg hm.2]
  · rw [if_pos hd]

/-! ## Steps and sessions -/

namespace Cpu

section
variable {c : Cpu Flat} {i : Instruction}

theorem f_step (h : (decode c.dialect c.regs.pc c.bus).1 = .ok i) :
    c.step.2.regs.f =
      (i.descriptor.action.perform (i.site c.regs.pc) ⟨c.regs.refresh i.page.width, c.bus⟩).2.regs.f := by
  obtain ⟨o, m, hp, hs⟩ := exists_perform h
  rw [hs, hp]

theorem step_keeps (h : (decode c.dialect c.regs.pc c.bus).1 = .ok i) {b : Flag}
    (hb : b ∈ i.descriptor.action.keeps) : c.step.2.regs.f.bit b = c.regs.f.bit b := by
  rw [f_step h]
  exact List.map_inj_left.mp (i.descriptor.action.perform_keeps _ _) b hb

theorem step_loadsFlags {f : Flags} (h : (decode c.dialect c.regs.pc c.bus).1 = .ok i)
    (hf : i.descriptor.form.loadsFlags? c.regs c.bus.memory = some f) : c.step.2.regs.f = f := by
  rw [f_step h]
  rcases loads_or_keeps_of_slot (slot_of_decode h) with ⟨hform, ha⟩ | ⟨hform, ha⟩ | ⟨hn, -⟩
  · rw [hform] at hf
    rw [ha]
    cases hf
    exact congrArg Flags.ofByte (Word.low_ofBytes _ _)
  · rw [hform] at hf
    rw [ha]
    cases hf
    rfl
  · rw [Form.loadsFlags?_eq_none hn] at hf
    cases hf

theorem step_unused (h : (decode c.dialect c.regs.pc c.bus).1 = .ok i)
    (hf : i.descriptor.form.loadsFlags? c.regs c.bus.memory = none) : c.step.2.regs.f.unused = c.regs.f.unused := by
  rcases loads_or_keeps_of_slot (slot_of_decode h) with ⟨hform, -⟩ | ⟨hform, -⟩ | ⟨-, hy, hx⟩
  · rw [hform] at hf
    cases hf
  · rw [hform] at hf
    cases hf
  · exact Prod.ext (step_keeps h hy) (step_keeps h hx)

end

/-- The flags that an operation loads as a whole. A cold reset clears them. -/
def loads? (c : Cpu Flat) : Operation → Option Flags
  | .step =>
    match (decode c.dialect c.regs.pc c.bus).1 with
    | .ok i => i.descriptor.form.loadsFlags? c.regs c.bus.memory
    | .error _ => none
  | .reset cold => if cold then some {} else none
  | .setPc _ | .load .. | .setInput .. => none

def lastLoads? (c : Cpu Flat) : List Operation → Option Flags
  | [] => none
  | op :: ops => ((c.act op).2.lastLoads? ops).or (c.loads? op)

theorem act_unused (c : Cpu Flat) (op : Operation) :
    (c.act op).2.regs.f.unused = ((c.loads? op).getD c.regs.f).unused := by
  cases op with
  | step =>
    unfold loads? act
    cases h : (decode c.dialect c.regs.pc c.bus).1 with
    | error opcode =>
      simp only [step_of_decode_error h, Option.getD_none]
    | ok i =>
      simp only
      cases hf : i.descriptor.form.loadsFlags? c.regs c.bus.memory with
      | none => exact step_unused h hf
      | some f => exact congrArg Flags.unused (step_loadsFlags h hf)
  | reset cold => cases cold <;> rfl
  | setPc a => rfl
  | load a bytes => rfl
  | setInput port v => rfl

theorem acted_unused (c : Cpu Flat) (ops : List Operation) :
    (c.acted ops).regs.f.unused = ((c.lastLoads? ops).getD c.regs.f).unused := by
  induction ops generalizing c with
  | nil => rfl
  | cons op ops ih =>
    rw [acted, ih, lastLoads?]
    cases (c.act op).2.lastLoads? ops with
    | none => exact act_unused c op
    | some f => rfl

/-- A step keeps the flags that the text of its instruction promises to keep, and changes the
    unused bits only where it loads all flags; these are the flags after it. So through a
    session of any length the unused bits are the last that were loaded. -/
theorem flags_frame (c : Cpu Flat) :
    (∀ i, (decode c.dialect c.regs.pc c.bus).1 = .ok i →
      (∀ b ∈ i.descriptor.form.keeps, c.step.2.regs.f.bit b = c.regs.f.bit b) ∧
      (i.descriptor.form.keeps = Flag.all → c.step.2.regs.f = c.regs.f) ∧
      (∀ f, i.descriptor.form.loadsFlags? c.regs c.bus.memory = some f → c.step.2.regs.f = f) ∧
      (i.descriptor.form.loadsFlags? c.regs c.bus.memory = none → c.step.2.regs.f.unused = c.regs.f.unused)) ∧
    ∀ ops, (c.acted ops).regs.f.unused = ((c.lastLoads? ops).getD c.regs.f).unused := by
  refine ⟨?_, acted_unused c⟩
  intro i h
  have hkeeps : ∀ b ∈ i.descriptor.form.keeps, c.step.2.regs.f.bit b = c.regs.f.bit b := by
    intro b hb
    exact step_keeps h (keeps_of_slot (slot_of_decode h) hb)
  refine ⟨hkeeps, ?_, fun f hf => step_loadsFlags h hf, step_unused h⟩
  intro hall
  rw [hall] at hkeeps
  exact Flags.eq_of_bits hkeeps

/-- `pop af` loads both unused bits, and `daa` behind it keeps them. -/
theorem flags_frame_popAf :
    let c : Cpu Flat := ⟨{ sp := 0x10 }, 0, .z80, { memory := (Memory.zero.load 0 [0xF1, 0x27]).set 0x10 0x2A }⟩
    (∃ i, (decode c.dialect c.regs.pc c.bus).1 = .ok i ∧
      i.descriptor.form.loadsFlags? c.regs c.bus.memory = some (Flags.ofByte 0x2A)) ∧
      c.step.2.regs.f = Flags.ofByte 0x2A ∧ (c.acted [.step, .step]).regs.f.unused = (true, true) := by
  intro c
  have hbyte : c.bus.memory.get c.regs.pc = 0xF1 := by
    simp [c, Memory.load, Memory.get_set]
  obtain ⟨e, he, hd⟩ : ∃ e, Page.base.slot (c.bus.memory.get c.regs.pc) = .instruction e ∧
      e.form = ⟨"pop", register "af", .none⟩ := by
    rw [hbyte]
    exact ⟨_, rfl, rfl⟩
  have h : (decode c.dialect c.regs.pc c.bus).1 = .ok ⟨e, .base⟩ := decode_of_base he rfl
  have hload : e.form.loadsFlags? c.regs c.bus.memory = some (Flags.ofByte 0x2A) := by
    rw [hd]
    simp [Form.loadsFlags?, c]
  obtain ⟨hstep, hrun⟩ := flags_frame c
  refine ⟨⟨_, h, hload⟩, (hstep _ h).2.2.1 _ hload, ?_⟩
  rw [hrun]
  decide +kernel

end Cpu

end Micro80
