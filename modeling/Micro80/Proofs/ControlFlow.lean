/-
  Micro80.Proofs.ControlFlow — where a step leaves the program counter and what it
  costs, read off the Zilog text. A text takes one of three routes: on to the next
  instruction, nowhere, or a branch that is taken or not (`route?`). Conditions go by
  their names, targets by the kinds of their operands; a repeating block instruction
  branches to itself.

  Proved, for every state of either dialect and every instruction that decodes:
  - `step_eq_route`: the program counter, the cycles and the stop after a step are those
    of the route of its text, in the state before the step.
-/

import Micro80.Proofs.Operands

namespace Micro80

open Bus (Flat)
open Encoding (conditionOperand upper)

def Flags.condition? (f : Flags) : String → Option Bool
  | "nz" => some (!f.z)
  | "z" => some f.z
  | "nc" => some (!f.c)
  | "c" => some f.c
  | "po" => some (!f.pv)
  | "pe" => some f.pv
  | "p" => some (!f.s)
  | "m" => some f.s
  | _ => none

theorem Flags.condition?_conditionOperand (f : Flags) (cc : Condition) :
    f.condition? (conditionOperand cc).name = some (cc.holds f) := by
  cases cc <;> rfl

/-! ## Routes -/

inductive Route where
  | next
  | stay
  | branch (taken : Bool) (target : Word)

namespace Route

def pc (start : Word) (length : Nat) : Route → Word
  | next => start + BitVec.ofNat 16 length
  | stay => start
  | branch taken target => if taken then target else start + BitVec.ofNat 16 length

def cost (cycles skipped : Nat) : Route → Nat
  | branch false _ => skipped
  | _ => cycles

def stop? : Route → Option Stop
  | stay => some .halt
  | _ => none

def outcome : Route → Outcome
  | next => .next
  | stay => .halt
  | branch taken target => .branch taken target

theorem target_outcome (i : Instruction) (start : Word) (r : Route) :
    i.target start r.outcome = r.pc start i.descriptor.length := by
  cases r with
  | next => rfl
  | stay => rfl
  | branch taken target => exact i.target_branch start taken target

theorem cost_outcome (i : Instruction) (r : Route) :
    i.cost r.outcome = r.cost i.descriptor.cycles i.descriptor.cyclesSkipped := by
  cases r with
  | next => rfl
  | stay => rfl
  | branch taken target =>
    rw [outcome, i.cost_branch]
    cases taken <;> rfl

theorem stop_outcome (r : Route) : r.outcome.stop? = r.stop? := by
  cases r with
  | next => rfl
  | stay => rfl
  | branch taken target => exact Outcome.stop_branch taken target

end Route

namespace Form

/-- Whether the condition of `f` holds; without one it does. -/
def holds? (f : Form) (flags : Flags) : Option Bool :=
  if f.dst.kind = .condition then flags.condition? f.dst.name else some true

theorem holds?_conditionOperand {f : Form} {cc : Condition} (h : f.dst = conditionOperand cc) (flags : Flags) :
    f.holds? flags = some (cc.holds flags) := by
  have hk : (conditionOperand cc).kind = .condition := rfl
  unfold holds?
  rw [h, if_pos hk, Flags.condition?_conditionOperand]

/-- The route of an instruction at `start`, its operand bytes beginning at `operands`. -/
def route? (f : Form) (start operands : Word) (r : Registers) (m : Memory) : Option Route :=
  match f.mnemonic with
  | "jp" =>
    if f.dst.kind = .registerIndirect then (r.named? f.dst.name).map (.branch true)
    else (f.holds? r.f).map (.branch · (m.getWord operands))
  | "call" => (f.holds? r.f).map (.branch · (m.getWord operands))
  | "jr" => (f.holds? r.f).map (.branch · ((start + 2).displace (m.get operands)))
  | "djnz" => some (.branch (r.b - 1 != 0) ((start + 2).displace (m.get operands)))
  | "ret" => (f.holds? r.f).map (.branch · (m.getWord r.sp))
  | "retn" | "reti" => some (.branch true (m.getWord r.sp))
  | "rst" => some (.branch true (8 * (upper (m.get start)).setWidth 16))
  | "ldir" | "lddr" => some (.branch (r.bc - 1 != 0) start)
  | "cpir" | "cpdr" => some (.branch (r.bc - 1 != 0 && r.a != m.get r.hl) start)
  | "halt" => some .stay
  | _ => some .next

end Form

/-! ## The routes of actions -/

/-- A relative jump is two bytes long. -/
theorem length_of_relative {p : Page} {opcode : Byte} {d : Descriptor} (h : p.slot opcode = .instruction d)
    (hm : d.form.mnemonic = "jr" ∨ d.form.mnemonic = "djnz") : d.length = 2 := by
  have checked : ∀ o, (p.slot o).all
      (fun d => (d.form.mnemonic = "jr" ∨ d.form.mnemonic = "djnz") → d.length = 2) = true := by
    cases p <;> decide +kernel
  exact of_decide_eq_true (Slot.of_all (checked opcode) h) hm

/-- A restart has one opcode byte, and its vector in it. -/
theorem vector_of_restart {p : Page} {opcode : Byte} {d : Descriptor} (h : p.slot opcode = .instruction d)
    {v : Byte} (ha : d.action = .restart v) : p = .base ∧ v.setWidth 16 = 8 * (upper opcode).setWidth 16 := by
  have checked : ∀ o, (p.slot o).all (fun d => match d.action with
      | .restart v => p = .base ∧ v.setWidth 16 = 8 * (upper o).setWidth 16
      | _ => true) = true := by
    cases p <;> decide +kernel
  have hv := Slot.of_all (checked opcode) h
  rw [ha] at hv
  exact of_decide_eq_true hv

namespace Action

open Form

/-- An action of that form leaves the program on that route. The opcode fetches that have
    been counted in the refresh register make no difference to it. -/
def Takes (a : Action) (s : Site) (b : Flat) (f : Form) : Prop :=
  ∀ (r : Registers) (n : Nat), ∃ route, f.route? s.start s.operands r b.memory = some route ∧
    (a.perform s ⟨r.refresh n, b⟩).1 = route.outcome

variable (s : Site) (b : Flat)

theorem takes_jumpIf (cc : Condition) : (jumpIf cc).Takes s b ⟨"jp", conditionOperand cc, .immediateWord⟩ := by
  intro r n
  have hc := holds?_conditionOperand (f := ⟨"jp", conditionOperand cc, .immediateWord⟩) rfl r.f
  refine ⟨.branch (cc.holds r.f) (b.memory.getWord s.operands), ?_, rfl⟩
  exact congrArg (Option.map (Route.branch · (b.memory.getWord s.operands))) hc

theorem takes_jumpPointer : jumpPointer.Takes s b ⟨"jp", .memoryAt s.pointer.name, .none⟩ := by
  intro r n
  refine ⟨.branch true (r.pointer s.pointer), ?_, ?_⟩
  · exact congrArg (Option.map (Route.branch true)) (Registers.named?_pairName r s.pointer .hl)
  · cases h : s.pointer <;> simp only [perform, Effect.bind_apply, Effect.regs_apply, Effect.pure_apply, h] <;> rfl

theorem takes_jumpRelative (h : s.next = s.start + 2) : jumpRelative.Takes s b ⟨"jr", .relative, .none⟩ := by
  intro r n
  refine ⟨.branch true (s.next.displace (b.memory.get s.operands)), ?_, rfl⟩
  rw [h]
  rfl

theorem takes_jumpRelativeIf (cc : Condition) (h : s.next = s.start + 2) :
    (jumpRelativeIf cc).Takes s b ⟨"jr", conditionOperand cc, .relative⟩ := by
  intro r n
  have hc := holds?_conditionOperand (f := ⟨"jr", conditionOperand cc, .relative⟩) rfl r.f
  refine ⟨.branch (cc.holds r.f) (s.next.displace (b.memory.get s.operands)), ?_, rfl⟩
  rw [h]
  exact congrArg (Option.map (Route.branch · ((s.start + 2).displace (b.memory.get s.operands)))) hc

theorem takes_countDown (h : s.next = s.start + 2) : countDown.Takes s b ⟨"djnz", .relative, .none⟩ := by
  intro r n
  refine ⟨.branch (r.b - 1 != 0) (s.next.displace (b.memory.get s.operands)), ?_, rfl⟩
  rw [h]
  rfl

theorem takes_callIf (cc : Condition) : (callIf cc).Takes s b ⟨"call", conditionOperand cc, .immediateWord⟩ := by
  intro r n
  have hc := holds?_conditionOperand (f := ⟨"call", conditionOperand cc, .immediateWord⟩) rfl r.f
  refine ⟨.branch (cc.holds r.f) (b.memory.getWord s.operands), ?_, ?_⟩
  · exact congrArg (Option.map (Route.branch · (b.memory.getWord s.operands))) hc
  · by_cases hh : cc.holds r.f = true
    · rw [perform_callIf (m := ⟨r.refresh n, b⟩) hh, hh]
      rfl
    · rw [perform_callIf_skip (m := ⟨r.refresh n, b⟩) hh, Bool.eq_false_iff.mpr hh]
      rfl

theorem takes_retIf (cc : Condition) : (retIf cc).Takes s b ⟨"ret", conditionOperand cc, .none⟩ := by
  intro r n
  have hc := holds?_conditionOperand (f := ⟨"ret", conditionOperand cc, .none⟩) rfl r.f
  refine ⟨.branch (cc.holds r.f) (b.memory.getWord r.sp), ?_, ?_⟩
  · exact congrArg (Option.map (Route.branch · (b.memory.getWord r.sp))) hc
  · by_cases hh : cc.holds r.f = true
    · rw [perform_retIf (m := ⟨r.refresh n, b⟩) hh, hh]
      rfl
    · rw [perform_retIf_skip (m := ⟨r.refresh n, b⟩) hh, Bool.eq_false_iff.mpr hh]
      rfl

theorem takes_restart {v : Byte} (name : Operand)
    (h : v.setWidth 16 = 8 * (upper (b.memory.get s.start)).setWidth 16) : (restart v).Takes s b ⟨"rst", name, .none⟩ := by
  intro r n
  refine ⟨.branch true (v.setWidth 16), ?_, rfl⟩
  rw [h]
  rfl

theorem takes_copyBlock {k : Block} {f : Form} (h : f ∈ (copyBlock k).forms s.pointer) :
    (copyBlock k).Takes s b f := by
  intro r n
  obtain ⟨down, repeats⟩ := k
  cases List.mem_singleton.mp h
  cases repeats
  · refine ⟨.next, ?_, rfl⟩
    cases down <;> rfl
  · refine ⟨.branch (r.bc - 1 != 0) s.start, ?_, rfl⟩
    cases down <;> rfl

theorem takes_searchBlock {k : Block} {f : Form} (h : f ∈ (searchBlock k).forms s.pointer) :
    (searchBlock k).Takes s b f := by
  intro r n
  obtain ⟨down, repeats⟩ := k
  cases List.mem_singleton.mp h
  cases repeats
  · refine ⟨.next, ?_, rfl⟩
    cases down <;> rfl
  · refine ⟨.branch (r.bc - 1 != 0 && r.a != b.memory.get r.hl) s.start, ?_, rfl⟩
    cases down <;> rfl

/-- Every action takes a route of its forms, where relative jumps are two bytes long and the
    opcode of a restart holds its vector. -/
theorem takes_forms {a : Action} {f : Form} (hf : f ∈ a.forms s.pointer)
    (hr : f.mnemonic = "jr" ∨ f.mnemonic = "djnz" → s.next = s.start + 2)
    (hv : ∀ v, a = .restart v → v.setWidth 16 = 8 * (upper (b.memory.get s.start)).setWidth 16) : a.Takes s b f := by
  cases a with
  | jump => cases List.mem_singleton.mp hf; exact fun r n => ⟨.branch true (b.memory.getWord s.operands), rfl, rfl⟩
  | jumpIf cc => cases List.mem_singleton.mp hf; exact takes_jumpIf s b cc
  | jumpPointer => cases List.mem_singleton.mp hf; exact takes_jumpPointer s b
  | jumpRelative => cases List.mem_singleton.mp hf; exact takes_jumpRelative s b (hr (.inl rfl))
  | jumpRelativeIf cc => cases List.mem_singleton.mp hf; exact takes_jumpRelativeIf s b cc (hr (.inl rfl))
  | countDown => cases List.mem_singleton.mp hf; exact takes_countDown s b (hr (.inr rfl))
  | call => cases List.mem_singleton.mp hf; exact fun r n => ⟨.branch true (b.memory.getWord s.operands), rfl, rfl⟩
  | callIf cc => cases List.mem_singleton.mp hf; exact takes_callIf s b cc
  | ret => cases List.mem_singleton.mp hf; exact fun r n => ⟨.branch true (b.memory.getWord r.sp), rfl, rfl⟩
  | retIf cc => cases List.mem_singleton.mp hf; exact takes_retIf s b cc
  | retInterrupt =>
    simp only [forms, List.mem_cons, List.not_mem_nil, or_false] at hf
    rcases hf with rfl | rfl <;> exact fun r n => ⟨.branch true (b.memory.getWord r.sp), rfl, rfl⟩
  | restart v => cases List.mem_singleton.mp hf; exact takes_restart s b _ (hv v rfl)
  | copyBlock k => exact takes_copyBlock s b hf
  | searchBlock k => exact takes_searchBlock s b hf
  | halt => cases List.mem_singleton.mp hf; exact fun r n => ⟨.stay, rfl, rfl⟩
  | loadImmediate dst =>
    cases List.mem_singleton.mp (List.mem_ite_nil_right.mp hf).2
    exact fun r n => ⟨.next, rfl, rfl⟩
  | pop dst =>
    cases List.mem_singleton.mp (List.mem_ite_nil_left.mp hf).2
    exact fun r n => ⟨.next, rfl, rfl⟩
  | combineImmediate op =>
    cases List.mem_singleton.mp (List.mem_ite_nil_right.mp hf).2
    cases op <;> exact fun r n => ⟨.next, rfl, rfl⟩
  | outputImmediate =>
    cases List.mem_singleton.mp (List.mem_ite_nil_right.mp hf).2
    exact fun r n => ⟨.next, rfl, rfl⟩
  | inputImmediate =>
    cases List.mem_singleton.mp (List.mem_ite_nil_right.mp hf).2
    exact fun r n => ⟨.next, rfl, rfl⟩
  | combine op src => cases List.mem_singleton.mp hf; cases op <;> exact fun r n => ⟨.next, rfl, rfl⟩
  | adjust op => cases List.mem_singleton.mp hf; cases op <;> exact fun r n => ⟨.next, rfl, rfl⟩
  | setInterrupts e => cases List.mem_singleton.mp hf; cases e <;> exact fun r n => ⟨.next, rfl, rfl⟩
  | _ => cases List.mem_singleton.mp hf; exact fun r n => ⟨.next, rfl, rfl⟩

end Action

namespace Cpu

/-- The program counter, the cycles and the stop after a step are those of a route of the Zilog text. -/
theorem step_eq_route {c : Cpu Flat} {i : Instruction} (h : (decode c.dialect c.regs.pc c.bus).1 = .ok i) :
    ∃ route, i.descriptor.form.route? c.regs.pc (c.regs.pc + BitVec.ofNat 16 i.page.width) c.regs c.bus.memory =
        some route ∧
      c.step.1 = route.stop? ∧
      c.step.2.regs.pc = route.pc c.regs.pc i.descriptor.length ∧
      c.step.2.cycles = c.cycles + route.cost i.descriptor.cycles i.descriptor.cyclesSkipped := by
  have hslot := slot_of_decode h
  have hr : i.descriptor.form.mnemonic = "jr" ∨ i.descriptor.form.mnemonic = "djnz" →
      (i.site c.regs.pc).next = (i.site c.regs.pc).start + 2 := by
    intro hm
    unfold Instruction.site
    rw [length_of_relative hslot hm]
    rfl
  have hv : ∀ v, i.descriptor.action = .restart v →
      v.setWidth 16 = 8 * (upper (c.bus.memory.get c.regs.pc)).setWidth 16 := by
    intro v ha
    obtain ⟨hp, hv⟩ := vector_of_restart hslot ha
    rw [hp, show c.regs.pc + BitVec.ofNat 16 (Page.base.width - 1) = c.regs.pc from BitVec.add_zero _] at hv
    exact hv
  obtain ⟨route, hroute, ho⟩ :=
    Action.takes_forms (i.site c.regs.pc) c.bus (form_mem_forms hslot) hr hv c.regs i.page.width
  have hstep := step_of_decode (o := route.outcome) h (Prod.ext ho rfl)
  refine ⟨route, hroute, ?_, ?_, ?_⟩
  · rw [hstep, Route.stop_outcome]
  · rw [hstep]
    exact Route.target_outcome i c.regs.pc route
  · rw [hstep, Route.cost_outcome]

/-- A count of zero is 256: `djnz` to itself is taken. -/
theorem step_eq_route_countDown :
    let c : Cpu Flat := ⟨{}, 0, .z80, { memory := Memory.zero.load 0 [0x10, 0xFE] }⟩
    let d := (Descriptor.zilogOnly "djnz" .relative .none 2 13 .countDown).skipping 8
    (decode c.dialect c.regs.pc c.bus).1 = .ok ⟨d, .base⟩ ∧ c.step.1 = none ∧ c.step.2.regs.pc = 0 ∧
      c.step.2.cycles = 13 := by
  intro c d
  have h₀ : c.bus.memory.get 0 = 0x10 := by simp [c, Memory.load, Memory.get_set]
  have h₁ : c.bus.memory.get 1 = 0xFE := by simp [c, Memory.load]
  have h : (decode c.dialect c.regs.pc c.bus).1 = .ok ⟨d, .base⟩ :=
    decode_of_base (by rw [h₀]; decide +kernel) rfl
  obtain ⟨route, hroute, hs, hpc, hcost⟩ := step_eq_route (c := c) h
  have he : d.form.route? 0 1 c.regs c.bus.memory = some (.branch true (Word.displace 2 (c.bus.memory.get 1))) := rfl
  rw [h₁] at he
  cases he.symm.trans hroute
  exact ⟨h, hs, hpc, hcost⟩

end Cpu

end Micro80
