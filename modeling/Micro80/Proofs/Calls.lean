/-
  Micro80.Proofs.Calls — calls and returns, told by their text. A call or a restart reads
  where it goes on before it pushes anything (`Form.callee`), and may push over its own
  bytes or over the first ones of what it calls; a return is a `ret` without a condition,
  or with one that holds (`Form.returns`).

  Proved, for either dialect and every state, whatever the program counter and the stack
  pointer are:
  - `return_after_call`: a call that is taken leaves the address behind it on the stack, and
    nothing else in memory changes. If it calls a return, then two steps leave every
    register as it was, but for the program counter, which is behind the call, and the
    refresh register, and they cost what both cost when they are taken.
-/

import Micro80.Proofs.Relocation
import Micro80.Proofs.Stack

namespace Micro80

open Bus (Flat)
open Encoding (conditionOperand upper)

/-! ## The text -/

namespace Form

/-- Where the text goes on when it stands at `a` and stores its return address: at the vector
    in a restart's opcode, or at the word behind a call's. -/
def callee (f : Form) (m : Memory) (a : Word) : Word :=
  if f.mnemonic = "rst" then 8 * (upper (m.get a)).setWidth 16 else m.getWord (a + 1)

/-- Whether the text takes the program back to where it was called from. -/
def returns (f : Form) (flags : Flags) : Bool := f.mnemonic = "ret" && f.holds? flags = some true

end Form

namespace Action

def returns (f : Flags) : Action → Bool
  | ret => true
  | retIf cc => cc.holds f
  | _ => false

def isLinkage : Action → Bool
  | call | callIf _ | restart _ | ret | retIf _ => true
  | _ => false

theorem isLinkage_of_links {a : Action} {f : Flags} (h : a.links f = true) : a.isLinkage = true := by
  cases a with
  | call | callIf cc | restart v => rfl
  | _ => cases h

theorem isLinkage_of_returns {a : Action} {f : Flags} (h : a.returns f = true) : a.isLinkage = true := by
  cases a with
  | ret | retIf cc => rfl
  | _ => cases h

end Action

section
variable {p : Page} {opcode : Byte} {d : Descriptor} (h : p.slot opcode = .instruction d)
include h

/-- Calls and returns have one opcode byte. -/
theorem base_of_isLinkage (ha : d.action.isLinkage = true) : p = .base := by
  have checked : ∀ o, (p.slot o).all (fun d => d.action.isLinkage = true → p = .base) = true := by
    cases p <;> decide +kernel
  exact of_decide_eq_true (Slot.of_all (checked opcode) h) ha

theorem returns_of_slot (f : Flags) : d.action.returns f = d.form.returns f := by
  have checked : ∀ o, (p.slot o).all (fun d => match d.action with
      | .ret => d.form.mnemonic = "ret" ∧ d.form.dst.kind ≠ .condition
      | .retIf cc => d.form.mnemonic = "ret" ∧ d.form.dst = conditionOperand cc
      | _ => d.form.mnemonic ≠ "ret") = true := by
    cases p <;> decide +kernel
  have hd := Slot.of_all (checked opcode) h
  cases ha : d.action with
  | ret =>
    rw [ha] at hd
    obtain ⟨hm, hk⟩ := of_decide_eq_true hd
    simp [Action.returns, Form.returns, hm, Form.holds?_of_not_condition hk]
  | retIf cc =>
    rw [ha] at hd
    obtain ⟨hm, hc⟩ := of_decide_eq_true hd
    simp [Action.returns, Form.returns, hm, Form.holds?_conditionOperand hc]
  | _ =>
    rw [ha] at hd
    simp [Action.returns, Form.returns, of_decide_eq_true hd]

end

/-! ## Actions -/

namespace Action

variable {s : Site} {m : Machine Flat}

theorem perform_returns {a : Action} (ha : a.returns m.regs.f = true) :
    a.perform s m = (.jump (m.bus.memory.getWord m.regs.sp), ⟨{ m.regs with sp := m.regs.sp + 2 }, m.bus⟩) := by
  cases a with
  | ret => rfl
  | retIf cc =>
    rw [perform_retIf ha]
    rfl
  | _ => cases ha

/-- A call goes to what its operand bytes hold before it pushes. -/
theorem perform_links_fst {opcode : Byte} {d : Descriptor} (h : Page.base.slot opcode = .instruction d)
    (ha : d.action.links m.regs.f = true) (hopcode : m.bus.memory.get s.start = opcode)
    (hoperands : s.operands = s.start + 1) :
    (d.action.perform s m).1 = .jump (d.form.callee m.bus.memory s.start) := by
  have hform := form_mem_forms h
  cases hd : d.action with
  | call =>
    rw [hd] at hform
    rw [List.mem_singleton.mp hform]
    exact congrArg (fun a => Outcome.jump (m.bus.memory.getWord a)) hoperands
  | callIf cc =>
    rw [hd] at hform ha
    rw [List.mem_singleton.mp hform, perform_callIf ha]
    exact congrArg (fun a => Outcome.jump (m.bus.memory.getWord a)) hoperands
  | restart v =>
    have hv := (vector_of_restart h hd).2
    rw [hd] at hform
    rw [List.mem_singleton.mp hform, Form.callee, if_pos rfl, hopcode, ← hv]
    rfl
  | _ =>
    rw [hd] at ha
    cases ha

end Action

/-! ## Steps -/

namespace Cpu

variable {c : Cpu Flat} {i : Instruction}

theorem step_call (hd : (decode c.dialect c.regs.pc c.bus).1 = .ok i)
    (hl : i.descriptor.form.links c.regs.f = true) :
    let back := c.regs.pc + BitVec.ofNat 16 i.descriptor.length
    c.step = (none, ⟨{ c.regs.refresh 1 with
        sp := c.regs.sp - 2
        pc := i.descriptor.form.callee c.bus.memory c.regs.pc },
      c.cycles + i.descriptor.cycles, c.dialect,
      c.bus.withMemory (c.bus.memory.setWord (c.regs.sp - 2) back)⟩) := by
  have hslot := slot_of_decode hd
  rw [← links_of_slot hslot] at hl
  have hbase := base_of_isLinkage hslot (Action.isLinkage_of_links hl)
  obtain ⟨d, p⟩ := i
  cases hbase
  have houtcome := Action.perform_links_fst (s := Instruction.site ⟨d, .base⟩ c.regs.pc)
    (m := ⟨c.regs.refresh 1, c.bus⟩) hslot hl (congrArg c.bus.memory.get (BitVec.add_zero c.regs.pc).symm) rfl
  have hmachine := Action.perform_links (s := Instruction.site ⟨d, .base⟩ c.regs.pc)
    (m := ⟨c.regs.refresh 1, c.bus⟩) hl
  exact step_of_decode hd (Prod.ext houtcome hmachine)

theorem step_return (hd : (decode c.dialect c.regs.pc c.bus).1 = .ok i)
    (hr : i.descriptor.form.returns c.regs.f = true) :
    c.step = (none, ⟨{ c.regs.refresh 1 with
        sp := c.regs.sp + 2
        pc := c.bus.memory.getWord c.regs.sp },
      c.cycles + i.descriptor.cycles, c.dialect, c.bus⟩) := by
  have hslot := slot_of_decode hd
  rw [← returns_of_slot hslot] at hr
  have hbase := base_of_isLinkage hslot (Action.isLinkage_of_returns hr)
  obtain ⟨d, p⟩ := i
  cases hbase
  exact step_of_decode hd (Action.perform_returns (m := ⟨c.regs.refresh 1, c.bus⟩) hr)

/-- The byte C9 is a return in either dialect. -/
theorem exists_return {d : Dialect} {a : Word} {b : Flat} (h : b.memory.get a = 0xC9) (f : Flags) :
    ∃ j, (decode d a b).1 = .ok j ∧ j.descriptor.form.returns f = true := by
  obtain ⟨e, he, hP⟩ := Slot.of_any (P := fun e => e.action = .ret ∧ e.intel.isSome = true)
    (s := Page.base.slot 0xC9) (by decide +kernel)
  obtain ⟨ha, hintel⟩ := of_decide_eq_true hP
  have hspelling : (e.spelling? d).isSome = true := by
    cases d with
    | z80 => rfl
    | i8080 => exact hintel
  refine ⟨⟨e, .base⟩, decode_of_base (by rw [h, he]) hspelling, ?_⟩
  rw [← returns_of_slot he, ha]
  rfl

/-- A call that is taken, and the return that it may call. -/
theorem return_after_call (hd : (decode c.dialect c.regs.pc c.bus).1 = .ok i)
    (hl : i.descriptor.form.links c.regs.f = true) :
    let back := c.regs.pc + BitVec.ofNat 16 i.descriptor.length
    let target := i.descriptor.form.callee c.bus.memory c.regs.pc
    let called := c.step.2
    c.step = (none, ⟨{ c.regs.refresh 1 with sp := c.regs.sp - 2, pc := target }, c.cycles + i.descriptor.cycles,
        c.dialect, c.bus.withMemory called.bus.memory⟩) ∧
      called.bus.memory.get (c.regs.sp - 1) = back.high ∧
      called.bus.memory.get (c.regs.sp - 2) = back.low ∧
      (∀ a, a ≠ c.regs.sp - 1 → a ≠ c.regs.sp - 2 → called.bus.memory.get a = c.bus.memory.get a) ∧
      (called.bus.memory.get target = 0xC9 →
        ∃ j, (decode c.dialect target called.bus).1 = .ok j ∧ j.descriptor.form.returns c.regs.f = true) ∧
      ∀ j, (decode c.dialect target called.bus).1 = .ok j → j.descriptor.form.returns c.regs.f = true →
        called.step = (none, ⟨(c.regs.refresh 2).setPc back,
          c.cycles + i.descriptor.cycles + j.descriptor.cycles, c.dialect, called.bus⟩) := by
  intro back target called
  have hstep := step_call hd hl
  have hcalled : called = ⟨{ c.regs.refresh 1 with sp := c.regs.sp - 2, pc := target },
      c.cycles + i.descriptor.cycles, c.dialect,
      c.bus.withMemory (c.bus.memory.setWord (c.regs.sp - 2) back)⟩ := congrArg Prod.snd hstep
  have habove : c.regs.sp - 1 = c.regs.sp - 2 + 1 := by bv_omega
  refine ⟨?_, ?_, ?_, ?_, fun hbyte => exists_return hbyte c.regs.f, ?_⟩
  · rw [hstep, hcalled]
    rfl
  · rw [hcalled, habove]
    exact c.bus.memory.get_setWord_high ..
  · rw [hcalled]
    exact c.bus.memory.get_setWord_low ..
  · intro a hhigh hlow
    rw [habove] at hhigh
    rw [hcalled]
    exact c.bus.memory.get_setWord_of_ne _ _ hlow hhigh
  · intro j hj hr
    have hback := step_return (c := called) (by rw [hcalled] at hj ⊢; exact hj) (by rw [hcalled]; exact hr)
    have hword : called.bus.memory.getWord called.regs.sp = back := by
      rw [hcalled]
      exact c.bus.memory.getWord_setWord ..
    have hsp : called.regs.sp + 2 = c.regs.sp := by
      rw [hcalled]
      exact BitVec.sub_add_cancel ..
    rw [hback, hword, hsp, hcalled, ← Registers.refresh_refresh c.regs 1 1]
    rfl

/-- The push of `rst 0` at C8 writes the return that it goes to: C9, the low byte of the
    address behind it, at 0. -/
theorem return_after_call_overlap :
    let c : Cpu Flat := ⟨{ sp := 2, pc := 0xC8 }, 0, .i8080, { memory := Memory.zero.set 0xC8 0xC7 }⟩
    ∃ i, (decode c.dialect c.regs.pc c.bus).1 = .ok i ∧ i.descriptor.form.links c.regs.f = true ∧
      c.step.2.regs.pc = 0 ∧ c.step.2.bus.memory.get 0 = 0xC9 ∧
      c.step.2.step = (none, ⟨{ sp := 2, pc := 0xC9, r := 2 }, 21, .i8080, c.step.2.bus⟩) := by
  intro c
  have hrst : c.bus.memory.get c.regs.pc = 0xC7 := Memory.get_set_self ..
  obtain ⟨d, hd, hP⟩ := Slot.of_any (s := Page.base.slot 0xC7) (P := fun d => d.intel.isSome = true ∧
    d.form.links c.regs.f = true ∧ d.form.mnemonic = "rst" ∧ d.length = 1 ∧ d.cycles = 11) (by decide +kernel)
  obtain ⟨hintel, hlinks, hm, hlength, hcycles⟩ := of_decide_eq_true hP
  have hdecode : (decode c.dialect c.regs.pc c.bus).1 = .ok ⟨d, .base⟩ := decode_of_base (by rw [hrst, hd]) hintel
  obtain ⟨hstep, -, hlow, -, -, hreturn⟩ := return_after_call hdecode hlinks
  have htarget : d.form.callee c.bus.memory c.regs.pc = 0 := by
    rw [Form.callee, if_pos hm, hrst]
    rfl
  have hret : c.step.2.bus.memory.get 0 = 0xC9 := by
    rw [hlength, show c.regs.sp - 2 = 0 by decide] at hlow
    exact hlow.trans (by decide)
  obtain ⟨e, he, hQ⟩ := Slot.of_any (s := Page.base.slot 0xC9) (P := fun e => e.intel.isSome = true ∧
    e.form.returns c.regs.f = true ∧ e.cycles = 10) (by decide +kernel)
  obtain ⟨hintel', hreturns, hcycles'⟩ := of_decide_eq_true hQ
  have hdecode' : (decode c.dialect 0 c.step.2.bus).1 = .ok ⟨e, .base⟩ := decode_of_base (by rw [hret, he]) hintel'
  have hback := hreturn ⟨e, .base⟩ (by rw [htarget]; exact hdecode') hreturns
  have hregs : (c.regs.refresh 2).setPc (c.regs.pc + BitVec.ofNat 16 1) = { sp := 2, pc := 0xC9, r := 2 } := by decide
  rw [hlength, hcycles, hcycles', hregs] at hback
  refine ⟨⟨d, .base⟩, hdecode, hlinks, ?_, hret, hback⟩
  rw [hstep]
  exact htarget

end Cpu

end Micro80
