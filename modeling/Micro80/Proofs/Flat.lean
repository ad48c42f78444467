/-
  Micro80.Proofs.Flat — the processor on flat memory, which no read changes. The parts
  of an instruction are functions of registers and memory (`read_apply` and the
  equations beside it). What decodes at an address is what its page holds at the opcode
  (`slot_of_decode`), and a step is that instruction performed (`step_of_decode`);
  `after` is the processor any number of steps on.
-/

import Micro80.Execution.Cpu
import Micro80.Host.Flat

namespace Micro80

open Bus (Flat)

/-! ## Words in memory -/

namespace Memory

/-- The little-endian word at `a`; its high byte may be at the bottom of memory. -/
def getWord (m : Memory) (a : Word) : Word := Word.ofBytes (m.get (a + 1)) (m.get a)

def setWord (m : Memory) (a w : Word) : Memory := (m.set a w.low).set (a + 1) w.high

theorem getWord_inj {m m' : Memory} {a a' : Word} :
    m.getWord a = m'.getWord a' ↔ m.get a = m'.get a' ∧ m.get (a + 1) = m'.get (a' + 1) := by
  rw [getWord, getWord, Word.ofBytes_inj, and_comm]

theorem set_comm (m : Memory) {a b : Word} (v w : Byte) (h : a ≠ b) :
    (m.set a v).set b w = (m.set b w).set a v := by
  apply ext_get
  intro x
  simp only [get_set]
  by_cases hb : b = x
  · have ha : a ≠ x := fun e => h (e.trans hb.symm)
    simp only [hb, ha, if_true, if_false]
  · simp only [hb, if_false]

/-- The stack's order of writing, high byte first, leaves the same word. -/
theorem set_high_low (m : Memory) (a w : Word) : (m.set (a + 1) w.high).set a w.low = m.setWord a w :=
  set_comm m _ _ (by bv_omega)

end Memory

def Bus.Flat.withMemory (b : Flat) (m : Memory) : Flat := { b with memory := m }

/-! ## The parts of an instruction -/

/-- The address of an instruction's memory operand. -/
def Site.cell (s : Site) (m : Machine Flat) : Word :=
  match s.pointer with
  | .hl => m.regs.hl
  | x => (m.regs.pointer x).displace (m.bus.memory.get s.operands)

namespace Machine

def byte (m : Machine Flat) (s : Site) : Place → Byte
  | .reg r => m.regs.get r
  | .cell => m.bus.memory.get (s.cell m)

def setByte (m : Machine Flat) (s : Site) (v : Byte) : Place → Machine Flat
  | .reg r => ⟨m.regs.set r v, m.bus⟩
  | .cell => ⟨m.regs, m.bus.withMemory (m.bus.memory.set (s.cell m) v)⟩

end Machine

namespace Effect

section
variable {β α γ : Type}

@[simp] theorem bind_apply (x : Effect β α) (f : α → Effect β γ) (m : Machine β) :
    (x >>= f) m = f (x m).1 (x m).2 := rfl

@[simp] theorem pure_apply (v : α) (m : Machine β) : (pure v : Effect β α) m = (v, m) := rfl

@[simp] theorem regs_apply (m : Machine β) : regs m = (m.regs, m) := rfl

@[simp] theorem modifyRegs_apply (g : Registers → Registers) (m : Machine β) :
    modifyRegs g m = ((), ⟨g m.regs, m.bus⟩) := rfl

end

variable (s : Site) (m : Machine Flat)

@[simp] theorem read_apply (a : Word) : read a m = (m.bus.memory.get a, m) := rfl

@[simp] theorem write_apply (a : Word) (v : Byte) :
    write a v m = ((), ⟨m.regs, m.bus.withMemory (m.bus.memory.set a v)⟩) := rfl

@[simp] theorem input_apply (p : Byte) : input p m = (m.bus.getInput p, m) := rfl

@[simp] theorem output_apply (p v : Byte) :
    output p v m = ((), ⟨m.regs, { m.bus with outputs := m.bus.outputs.push (p, v) }⟩) := rfl

@[simp] theorem push_apply (w : Word) :
    push w m = ((), ⟨{ m.regs with sp := m.regs.sp - 2 },
      m.bus.withMemory (m.bus.memory.setWord (m.regs.sp - 2) w)⟩) := by
  rw [← Memory.set_high_low, show m.regs.sp - 2 + 1 = m.regs.sp - 1 by bv_omega]
  rfl

@[simp] theorem pop_apply :
    pop m = (m.bus.memory.getWord m.regs.sp, ⟨{ m.regs with sp := m.regs.sp + 2 }, m.bus⟩) := rfl

@[simp] theorem immediate_apply :
    immediate s m = (m.bus.memory.get (s.operands + if s.pointer = .hl then 0 else 1), m) := rfl

/-- Behind HL there is no displacement to pass over. -/
theorem immediate_apply_hl {s : Site} (h : s.pointer = .hl) :
    immediate s m = (m.bus.memory.get s.operands, m) := by
  rw [immediate_apply, if_pos h, show s.operands + 0 = s.operands from BitVec.add_zero _]

@[simp] theorem cellAddress_apply : cellAddress s m = (s.cell m, m) := by
  obtain ⟨start, operands, next, x⟩ := s
  cases x <;> rfl

@[simp] theorem get_apply (p : Place) : get s p m = (m.byte s p, m) := by
  cases p with
  | reg r => rfl
  | cell => simp only [get, bind_apply, cellAddress_apply, read_apply, Machine.byte]

@[simp] theorem set_apply (v : Byte) (p : Place) : set s v p m = ((), m.setByte s v p) := by
  cases p with
  | reg r => rfl
  | cell => simp only [set, bind_apply, cellAddress_apply, write_apply, Machine.setByte]

/-- The address of a changed cell does not hang on the flags. -/
theorem update_apply (g : Flags → Byte → Byte × Flags) (p : Place) :
    update s g p m = ((), Machine.setByte ⟨{ m.regs with f := (g m.regs.f (m.byte s p)).2 }, m.bus⟩ s
      (g m.regs.f (m.byte s p)).1 p) := by
  obtain ⟨start, operands, next, x⟩ := s
  cases p with
  | reg r => rfl
  | cell => cases x <;> rfl

@[simp] theorem accumulate_apply (g : Flags → Byte → Byte × Flags) :
    accumulate g m = ((), ⟨{ m.regs with a := (g m.regs.f m.regs.a).1, f := (g m.regs.f m.regs.a).2 }, m.bus⟩) := rfl

end Effect

/-! ## Conditional calls and returns -/

namespace Action

variable {β : Type} [PortBus β] {cc : Condition} {s : Site} {m : Machine β}

theorem perform_callIf (h : cc.holds m.regs.f = true) : (callIf cc).perform s m = call.perform s m :=
  congrFun (if_pos h) _

theorem perform_callIf_skip (h : ¬cc.holds m.regs.f = true) : (callIf cc).perform s m = (.skip, m) :=
  congrFun (if_neg h) _

theorem perform_retIf (h : cc.holds m.regs.f = true) : (retIf cc).perform s m = ret.perform s m :=
  congrFun (if_pos h) _

theorem perform_retIf_skip (h : ¬cc.holds m.regs.f = true) : (retIf cc).perform s m = (.skip, m) :=
  congrFun (if_neg h) _

end Action

/-! ## Decoding -/

@[simp] theorem decode_snd (d : Dialect) (a : Word) (b : Flat) : (decode d a b).2 = b := by
  unfold decode
  simp only
  split <;> rfl

theorem Slot.eq_of_decode {slot : Slot} {p : Page} {d : Dialect} {opcode : Byte} {i : Instruction}
    (h : slot.decode p d opcode = .ok i) :
    slot = .instruction i.descriptor ∧ i.page = p ∧ (i.descriptor.spelling? d).isSome = true := by
  cases slot with
  | vacant => cases h
  | lead q => cases h
  | instruction e =>
    simp only [Slot.decode] at h
    split at h
    · cases h; exact ⟨rfl, rfl, ‹_›⟩
    · cases h

/-- No byte leads back to the base page. -/
theorem Page.width_of_lead {p : Page} {first : Byte} (h : Page.base.slot first = .lead p) : p.width = 2 := by
  have checked : ∀ o, Page.base.slot o ≠ .lead .base := by decide +kernel
  cases p with
  | base => exact absurd h (checked first)
  | dd => rfl
  | ed => rfl
  | fd => rfl

/-- The last of its opcode bytes is where an instruction's page holds it. -/
theorem slot_of_decode {d : Dialect} {a : Word} {b : Flat} {i : Instruction} (h : (decode d a b).1 = .ok i) :
    i.page.slot (b.memory.get (a + BitVec.ofNat 16 (i.page.width - 1))) = .instruction i.descriptor := by
  unfold decode at h
  simp only at h
  split at h
  · rename_i page hs
    obtain ⟨hi, hp, -⟩ := Slot.eq_of_decode h
    rw [hp, Page.width_of_lead hs]
    exact hi
  · obtain ⟨hi, hp, -⟩ := Slot.eq_of_decode h
    rw [hp, show a + BitVec.ofNat 16 (Page.base.width - 1) = a from BitVec.add_zero a]
    exact hi

theorem decode_of_base {d : Dialect} {a : Word} {b : Flat} {e : Descriptor}
    (he : Page.base.slot (b.memory.get a) = .instruction e) (hd : (e.spelling? d).isSome = true) :
    (decode d a b).1 = .ok ⟨e, .base⟩ := by
  have h : (decode d a b).1 = (Slot.instruction e).decode .base d (b.memory.get a) := by
    unfold decode
    simp only [show Bus.read b a = (b.memory.get a, b) from rfl, he]
  rw [h, Slot.decode, if_pos hd]

theorem decode_of_lead {a : Word} {b : Flat} {p : Page} {d : Descriptor}
    (hp : Page.base.slot (b.memory.get a) = .lead p) (hd : p.slot (b.memory.get (a + 1)) = .instruction d) :
    (decode .z80 a b).1 = .ok ⟨d, p⟩ := by
  have h : (decode .z80 a b).1 = (p.slot (b.memory.get (a + 1))).decode p .z80 (b.memory.get (a + 1)) := by
    unfold decode
    simp only [show Bus.read b a = (b.memory.get a, b) from rfl, hp]
    rfl
  rw [h, hd]
  rfl

/-! ## Branches -/

theorem Outcome.stop_branch (taken : Bool) (t : Word) : (branch taken t).stop? = none := by
  cases taken <;> rfl

/-- The only stop that an outcome gives is the halt. -/
theorem Outcome.stop_eq_some {o : Outcome} {stop : Stop} (h : o.stop? = some stop) : o = .halt ∧ stop = .halt := by
  cases o with
  | halt => cases h; exact ⟨rfl, rfl⟩
  | next => cases h
  | skip => cases h
  | jump t => cases h

theorem Instruction.target_branch (i : Instruction) (start : Word) (taken : Bool) (t : Word) :
    i.target start (.branch taken t) = if taken then t else start + BitVec.ofNat 16 i.descriptor.length := by
  cases taken <;> rfl

theorem Instruction.cost_branch (i : Instruction) (taken : Bool) (t : Word) :
    i.cost (.branch taken t) = if taken then i.descriptor.cycles else i.descriptor.cyclesSkipped := by
  cases taken <;> rfl

/-! ## Steps -/

namespace Registers

def setPc (r : Registers) (p : Word) : Registers := { r with pc := p }

theorem setPc_setPc (r : Registers) (p q : Word) : (r.setPc p).setPc q = r.setPc q := rfl

theorem refresh_setPc (r : Registers) (p : Word) (n : Nat) : (r.setPc p).refresh n = (r.refresh n).setPc p := rfl

end Registers

namespace Cpu

/-- A step performs what decodes at the program counter. -/
theorem step_of_decode {c : Cpu Flat} {i : Instruction} (h : (decode c.dialect c.regs.pc c.bus).1 = .ok i)
    {o : Outcome} {m : Machine Flat}
    (hp : i.descriptor.action.perform (i.site c.regs.pc) ⟨c.regs.refresh i.page.width, c.bus⟩ = (o, m)) :
    c.step = (o.stop?, ⟨{ m.regs with pc := i.target c.regs.pc o }, c.cycles + i.cost o, c.dialect, m.bus⟩) := by
  obtain ⟨regs, cycles, dialect, bus⟩ := c
  have hd : decode dialect regs.pc bus = (.ok i, bus) := Prod.ext h (decode_snd ..)
  simp only at hp
  simp only [step, hd, execute, hp]

/-- The outcome of what decodes, the machine that it leaves, and the step made of both. -/
theorem exists_perform {c : Cpu Flat} {i : Instruction} (h : (decode c.dialect c.regs.pc c.bus).1 = .ok i) :
    ∃ o m, i.descriptor.action.perform (i.site c.regs.pc) ⟨c.regs.refresh i.page.width, c.bus⟩ = (o, m) ∧
      c.step = (o.stop?, ⟨{ m.regs with pc := i.target c.regs.pc o }, c.cycles + i.cost o, c.dialect, m.bus⟩) :=
  ⟨_, _, rfl, step_of_decode h rfl⟩

/-- The processor `n` steps on, stops included. -/
def after (c : Cpu Flat) : Nat → Cpu Flat
  | 0 => c
  | n + 1 => (c.step.2).after n

end Cpu

end Micro80
