/-
  Micro80.Proofs.Relocation — a step at two places with the same four bytes. The text of
  an instruction says whether it stores the address behind it (`Form.links`), and whether
  it goes on at an address that is the same from everywhere (`Form.leaps`). The program
  counter is in nothing else that an action does (`perform_setPc`).

  Proved, for either dialect, every state and any two addresses:
  - `step_relocated`: where the four bytes are the same, a step gives the same result, at
    the same cost, with the same use of ports, and leaves the same registers and the same
    memory, but for the return address of a restart or a call that is taken. The program
    counter is the same after what leaps, and as far from the start after all else.
-/

import Micro80.Proofs.Placement
import Micro80.Proofs.Traffic

namespace Micro80

open Bus (Flat Access)
open Encoding (conditionOperand)

/-! ## The text -/

namespace Form

/-- Whether the text stores the address of the next instruction: a restart, or a call whose
    condition holds. -/
def links (f : Form) (flags : Flags) : Bool :=
  f.mnemonic = "rst" || f.mnemonic = "call" && f.holds? flags = some true

/-- Whether the text goes on at an address of its own: a jump, a call or a return that has no
    condition, or one that holds. A relative jump goes on at a distance. -/
def leaps (f : Form) (flags : Flags) : Bool :=
  f.mnemonic ∈ ["rst", "retn", "reti"] || f.mnemonic ∈ ["jp", "call", "ret"] && f.holds? flags = some true

theorem leaps_eq {f : Form} (h : f.mnemonic ∈ ["jp", "call", "ret"]) (flags : Flags) :
    f.leaps flags = decide (f.holds? flags = some true) := by
  have hother : ∀ name ∈ ["jp", "call", "ret"], name ∉ ["rst", "retn", "reti"] := by decide
  rw [leaps, decide_eq_true h, decide_eq_false (hother _ h), Bool.false_or, Bool.true_and]

theorem holds?_of_not_condition {f : Form} (h : f.dst.kind ≠ .condition) (flags : Flags) :
    f.holds? flags = some true :=
  if_neg h

end Form

section
variable {p : Page} {opcode : Byte} {d : Descriptor} (h : p.slot opcode = .instruction d) (f : Flags)
include h

theorem links_of_slot : d.action.links f = d.form.links f := by
  have checked : ∀ o, (p.slot o).all (fun d => match d.action with
      | .callIf _ => true
      | .call => d.form.mnemonic = "call" ∧ d.form.dst.kind ≠ .condition
      | .restart _ => d.form.mnemonic = "rst"
      | _ => d.form.mnemonic ≠ "rst" ∧ d.form.mnemonic ≠ "call") = true := by
    cases p <;> decide +kernel
  have hd := Slot.of_all (checked opcode) h
  cases ha : d.action with
  | call =>
    rw [ha] at hd
    obtain ⟨hm, hk⟩ := of_decide_eq_true hd
    simp [Action.links, Form.links, hm, Form.holds?_of_not_condition hk]
  | restart v =>
    rw [ha] at hd
    simp [Action.links, Form.links, of_decide_eq_true hd]
  | callIf cc =>
    obtain ⟨hm, hh⟩ := holds?_of_callIf h ha f
    simp [Action.links, Form.links, hm, hh]
  | _ =>
    rw [ha] at hd
    simp [Action.links, Form.links, of_decide_eq_true hd]

theorem leaps_of_slot : d.action.leaps f = d.form.leaps f := by
  have checked : ∀ o, (p.slot o).all (fun d => match d.action with
      | .jump | .jumpPointer | .call | .ret =>
        d.form.mnemonic ∈ ["jp", "call", "ret"] ∧ d.form.dst.kind ≠ .condition
      | .jumpIf cc | .callIf cc | .retIf cc =>
        d.form.mnemonic ∈ ["jp", "call", "ret"] ∧ d.form.dst = conditionOperand cc
      | .retInterrupt | .restart _ => d.form.mnemonic ∈ ["rst", "retn", "reti"]
      | _ => d.form.mnemonic ∉ ["rst", "retn", "reti"] ∧ d.form.mnemonic ∉ ["jp", "call", "ret"]) = true := by
    cases p <;> decide +kernel
  have hd := Slot.of_all (checked opcode) h
  cases ha : d.action with
  | jump | jumpPointer | call | ret =>
    rw [ha] at hd
    obtain ⟨hm, hk⟩ := of_decide_eq_true hd
    rw [Form.leaps_eq hm, Form.holds?_of_not_condition hk]
    rfl
  | jumpIf cc | callIf cc | retIf cc =>
    rw [ha] at hd
    obtain ⟨hm, hc⟩ := of_decide_eq_true hd
    rw [Form.leaps_eq hm, Form.holds?_conditionOperand hc, Action.leaps]
    simp
  | retInterrupt | restart v =>
    rw [ha] at hd
    rw [Form.leaps, decide_eq_true (of_decide_eq_true hd)]
    rfl
  | _ =>
    rw [ha] at hd
    obtain ⟨hm, hm'⟩ := of_decide_eq_true hd
    rw [Form.leaps, decide_eq_false hm, decide_eq_false hm']
    rfl

end

/-! ## Actions -/

theorem Pointer.recast_setPc (x : Pointer) (p : Word) : Recast (fun u => { u with pc := p }) x x where
  hl_iff := .rfl
  get r := by cases x <;> rfl
  set r w := by cases x <;> rfl

namespace Action

/-- No action looks at the program counter. -/
theorem perform_setPc (a : Action) (s : Site) (m : Machine Flat) (p : Word) :
    a.perform s (m.map (·.setPc p)) = ((a.perform s m).1, (a.perform s m).2.map (·.setPc p)) :=
  a.tracks_recast (s.pointer.recast_setPc p) m

def ports (s : Site) (m : Machine Flat) (a : Action) : List Access :=
  ((a.reads s m).accesses m.bus ++ (a.writes s m).accesses).filter Access.isPort

theorem ports_alike {s s' : Site} {m : Machine Flat} (h : s.Alike s' m.bus.memory) (p : Word) (a : Action) :
    a.ports s' (m.map (·.setPc p)) = a.ports s m := by
  have himmediate : m.bus.memory.get s'.immediate = m.bus.memory.get s.immediate := congrArg Prod.fst h.immediate
  have hbus : (m.map (·.setPc p)).bus = m.bus := rfl
  have hf : (m.map (·.setPc p)).regs.f = m.regs.f := rfl
  cases a with
  | inputImmediate => simp only [ports, reads, writes, hbus, himmediate]
  | outputImmediate =>
    simp only [ports, reads, writes, hbus, himmediate]
    rfl
  | load dst src => cases dst <;> cases src <;> rfl
  | loadImmediate dst | increment dst | decrement dst => cases dst <;> rfl
  | combine op src => cases src <;> rfl
  | callIf cc | retIf cc =>
    by_cases hc : cc.holds m.regs.f = true
    · simp only [ports, reads, writes, hf, if_pos hc]
      rfl
    · simp only [ports, reads, writes, hf, if_neg hc]
      rfl
  | _ => rfl

end Action

/-! ## Steps -/

/-- The same stop, reported from `a`. -/
def Stop.relocated (a : Word) : Stop → Stop
  | halt => .halt
  | invalid opcode _ => .invalid opcode a

/-- `c'` is `c` with its program counter where the same four bytes stand. What the two have
    spent so far may differ. -/
structure Cpu.Relocates (c c' : Cpu Flat) : Prop where
  dialect : c'.dialect = c.dialect
  bus : c'.bus = c.bus
  regs : c'.regs = c.regs.setPc c'.regs.pc
  code : ∀ k < 4, c.bus.memory.get (c'.regs.pc + BitVec.ofNat 16 k) = c.bus.memory.get (c.regs.pc + BitVec.ofNat 16 k)

namespace Cpu.Relocates

variable {c c' : Cpu Flat} (h : c.Relocates c')
include h

theorem first : c.bus.memory.get c'.regs.pc = c.bus.memory.get c.regs.pc := by
  have h0 := h.code 0 (by decide)
  rwa [Word.add_ofNat_zero, Word.add_ofNat_zero] at h0

theorem decode_eq : (decode c'.dialect c'.regs.pc c'.bus).1 = (decode c.dialect c.regs.pc c.bus).1 := by
  rw [h.dialect, h.bus]
  exact decode_congr h.first fun _ => h.code 1 (by decide)

theorem word {n : Nat} (hn : n < 3) :
    c.bus.memory.getWord (c'.regs.pc + BitVec.ofNat 16 n) = c.bus.memory.getWord (c.regs.pc + BitVec.ofNat 16 n) := by
  have hhigh := h.code (n + 1) (by omega)
  rw [BitVec.ofNat_add, ← BitVec.add_assoc, ← BitVec.add_assoc] at hhigh
  simp only [Memory.getWord, h.code n (by omega)]
  exact congrArg (Word.ofBytes · _) hhigh

/-- No opcode has more than two bytes, so that the operand bytes are among the four. -/
theorem alike (i : Instruction) : (i.site c.regs.pc).Alike (i.site c'.regs.pc) c.bus.memory where
  pointer := rfl
  word := h.word (by cases i.page <;> decide)

theorem machine (n : Nat) :
    (⟨c'.regs.refresh n, c'.bus⟩ : Machine Flat) = Machine.map (·.setPc c'.regs.pc) ⟨c.regs.refresh n, c.bus⟩ := by
  rw [Machine.map, ← Registers.refresh_setPc, ← h.regs, h.bus]

end Cpu.Relocates

theorem Word.offset_eq (a a' w : Word) : a' + w - a' = a + w - a := by
  bv_omega

theorem Memory.filter_isPort_noted {α : Type} (m : Memory) (f : α → Word) (l : List α) :
    (l.map fun k => m.noted (f k)).filter Access.isPort = [] := by
  refine List.filter_eq_nil_iff.mpr fun x hx => ?_
  obtain ⟨k, -, rfl⟩ := List.mem_map.mp hx
  exact Bool.false_ne_true

theorem Outcome.stop?_moved (δ : Word) (o : Outcome) : (o.moved δ).stop? = o.stop? := by
  cases o <;> rfl

theorem Instruction.cost_moved (i : Instruction) (δ : Word) (o : Outcome) : i.cost (o.moved δ) = i.cost o := by
  cases o <;> rfl

theorem Instruction.target_moved (i : Instruction) (a a' : Word) (o : Outcome) :
    i.target a' (o.moved (a' - a)) - a' = i.target a o - a := by
  cases o with
  | next | skip => exact Word.offset_eq a a' _
  | jump t =>
    simp only [target, Outcome.moved]
    bv_omega
  | halt => exact (BitVec.sub_self a').trans (BitVec.sub_self a).symm

namespace Cpu

variable {c : Cpu Flat} {i : Instruction}

/-- The bytes of an instruction are in memory. -/
theorem ports_of_decode (h : (decode c.dialect c.regs.pc c.bus).1 = .ok i) :
    c.accesses.filter Access.isPort =
      i.descriptor.action.ports (i.site c.regs.pc) ⟨c.regs.refresh i.page.width, c.bus⟩ := by
  rw [accesses_of_decode h, List.append_assoc, List.filter_append, Memory.filter_isPort_noted, List.nil_append]
  rfl

end Cpu

namespace Cpu.Relocates

variable {c c' : Cpu Flat} {i : Instruction} (h : c.Relocates c') (hd : (decode c.dialect c.regs.pc c.bus).1 = .ok i)
include h hd

theorem ports : c'.accesses.filter Access.isPort = c.accesses.filter Access.isPort := by
  rw [Cpu.ports_of_decode hd, Cpu.ports_of_decode (h.decode_eq.trans hd), h.machine]
  exact Action.ports_alike (h.alike i) ..

/-- Both steps perform the action on the registers of one of them. -/
theorem steps : ∃ o o' m m',
    i.descriptor.action.perform (i.site c.regs.pc) ⟨c.regs.refresh i.page.width, c.bus⟩ = (o, m) ∧
      i.descriptor.action.perform (i.site c'.regs.pc) ⟨c.regs.refresh i.page.width, c.bus⟩ = (o', m') ∧
      c.step = (o.stop?, ⟨m.regs.setPc (i.target c.regs.pc o), c.cycles + i.cost o, c.dialect, m.bus⟩) ∧
      c'.step = (o'.stop?, ⟨m'.regs.setPc (i.target c'.regs.pc o'), c'.cycles + i.cost o', c'.dialect, m'.bus⟩) := by
  obtain ⟨o, m, hm, hs⟩ := Cpu.exists_perform hd
  obtain ⟨o', m', hm'⟩ : ∃ o m,
      i.descriptor.action.perform (i.site c'.regs.pc) ⟨c.regs.refresh i.page.width, c.bus⟩ = (o, m) := ⟨_, _, rfl⟩
  refine ⟨o, o', m, m', hm, hm', hs, ?_⟩
  have hmoved : i.descriptor.action.perform (i.site c'.regs.pc) ⟨c'.regs.refresh i.page.width, c'.bus⟩ =
      (o', m'.map (·.setPc c'.regs.pc)) := by
    rw [h.machine, Action.perform_setPc, hm']
  have hstep := Cpu.step_of_decode (h.decode_eq.trans hd) hmoved
  exact hstep

theorem step_regs : c'.step.2.regs = c.step.2.regs.setPc c'.step.2.regs.pc := by
  obtain ⟨o, o', m, m', hm, hm', hs, hs'⟩ := h.steps hd
  have halike := Action.regs_perform_alike (m := ⟨c.regs.refresh i.page.width, c.bus⟩) (h.alike i) i.descriptor.action
  rw [hm, hm'] at halike
  rw [hs, hs', ← halike]
  rfl

/-- The memory is the same, but for a return address. -/
theorem step_bus :
    let linked (a : Word) :=
      c.bus.withMemory (c.bus.memory.setWord (c.regs.sp - 2) (a + BitVec.ofNat 16 i.descriptor.length))
    if i.descriptor.form.links c.regs.f then
      c.step.2.bus = linked c.regs.pc ∧ c'.step.2.bus = linked c'.regs.pc
    else c'.step.2.bus = c.step.2.bus := by
  obtain ⟨o, o', m, m', hm, hm', hs, hs'⟩ := h.steps hd
  rw [hs, hs', ← links_of_slot (slot_of_decode hd)]
  cases ha : i.descriptor.action.links c.regs.f with
  | true =>
    have hbus := Action.perform_links (s := i.site c.regs.pc) (m := ⟨c.regs.refresh i.page.width, c.bus⟩) ha
    have hbus' := Action.perform_links (s := i.site c'.regs.pc) (m := ⟨c.regs.refresh i.page.width, c.bus⟩) ha
    rw [hm] at hbus
    rw [hm'] at hbus'
    exact ⟨congrArg Machine.bus hbus, congrArg Machine.bus hbus'⟩
  | false =>
    have hbus := Action.perform_alike (m := ⟨c.regs.refresh i.page.width, c.bus⟩) (h.alike i) ha
    rw [hm, hm'] at hbus
    exact congrArg Machine.bus hbus

/-- Where a step goes on, and at what cost. -/
theorem step_control :
    c'.step.1 = c.step.1 ∧ (∀ opcode a, c.step.1 ≠ some (.invalid opcode a)) ∧
      (∃ n, c.step.2.cycles = c.cycles + n ∧ c'.step.2.cycles = c'.cycles + n) ∧
      if i.descriptor.form.leaps c.regs.f then c'.step.2.regs.pc = c.step.2.regs.pc
      else c'.step.2.regs.pc - c'.regs.pc = c.step.2.regs.pc - c.regs.pc := by
  obtain ⟨o, o', m, m', hm, hm', hs, hs'⟩ := h.steps hd
  rw [hs, hs', ← leaps_of_slot (slot_of_decode hd)]
  cases ha : i.descriptor.action.leaps c.regs.f with
  | true =>
    obtain ⟨t, ht, ht'⟩ := Action.perform_leaps (m := ⟨c.regs.refresh i.page.width, c.bus⟩) (h.alike i) ha
    rw [hm] at ht
    rw [hm'] at ht'
    cases ht
    cases ht'
    exact ⟨rfl, nofun, ⟨_, rfl, rfl⟩, rfl⟩
  | false =>
    have hnext := Word.offset_eq c.regs.pc c'.regs.pc (BitVec.ofNat 16 i.descriptor.length)
    have hmoved := Action.perform_moved (m := ⟨c.regs.refresh i.page.width, c.bus⟩) (h.alike i) hnext ha
    rw [hm, hm'] at hmoved
    have ho : o' = o.moved (c'.regs.pc - c.regs.pc) := hmoved
    rw [ho]
    refine ⟨o.stop?_moved _, ?_, ⟨i.cost o, rfl, ?_⟩, i.target_moved c.regs.pc c'.regs.pc o⟩
    · intro opcode a hstop
      cases (Outcome.stop_eq_some hstop).2
    · rw [i.cost_moved]

end Cpu.Relocates

namespace Cpu

theorem stop_relocated {s : Option Stop} (h : ∀ opcode a, s ≠ some (.invalid opcode a)) (a : Word) :
    s.map (·.relocated a) = s := by
  cases s with
  | none => rfl
  | some stop =>
    cases stop with
    | halt => rfl
    | invalid opcode b => exact absurd rfl (h opcode b)

/-- A step at another place with the same bytes. -/
theorem step_relocated {c c' : Cpu Flat} (h : c.Relocates c') :
    c'.step.1 = c.step.1.map (·.relocated c'.regs.pc) ∧
      (∀ opcode a, c.step.1 = some (.invalid opcode a) → a = c.regs.pc) ∧
      (∃ n, c.step.2.cycles = c.cycles + n ∧ c'.step.2.cycles = c'.cycles + n) ∧
      c'.accesses.filter Access.isPort = c.accesses.filter Access.isPort ∧
      c'.step.2.regs = c.step.2.regs.setPc c'.step.2.regs.pc ∧
      match (decode c.dialect c.regs.pc c.bus).1 with
      | .error _ => c'.step.2.bus = c.step.2.bus ∧ c.step.2.regs.pc = c.regs.pc ∧ c'.step.2.regs.pc = c'.regs.pc
      | .ok i =>
        let linked (a : Word) :=
          c.bus.withMemory (c.bus.memory.setWord (c.regs.sp - 2) (a + BitVec.ofNat 16 i.descriptor.length))
        (if i.descriptor.form.links c.regs.f then
          c.step.2.bus = linked c.regs.pc ∧ c'.step.2.bus = linked c'.regs.pc
        else c'.step.2.bus = c.step.2.bus) ∧
        if i.descriptor.form.leaps c.regs.f then c'.step.2.regs.pc = c.step.2.regs.pc
        else c'.step.2.regs.pc - c'.regs.pc = c.step.2.regs.pc - c.regs.pc := by
  cases hd : (decode c.dialect c.regs.pc c.bus).1 with
  | error opcode =>
    have hd' := h.decode_eq.trans hd
    have hports : c'.accesses.filter Access.isPort = c.accesses.filter Access.isPort := by
      rw [accesses_of_decode_error hd, accesses_of_decode_error hd']
      exact (c'.bus.memory.filter_isPort_noted id _).trans (c.bus.memory.filter_isPort_noted id _).symm
    rw [step_of_decode_error hd, step_of_decode_error hd']
    refine ⟨rfl, ?_, ⟨0, rfl, rfl⟩, hports, h.regs, h.bus, rfl, rfl⟩
    intro o a ho
    cases ho
    rfl
  | ok i =>
    obtain ⟨hstop, hvalid, hcycles, hpc⟩ := h.step_control hd
    refine ⟨?_, ?_, hcycles, h.ports hd, h.step_regs hd, h.step_bus hd, hpc⟩
    · rw [hstop, stop_relocated hvalid]
    · intro opcode a ho
      exact absurd ho (hvalid opcode a)

/-- The call at `0xFFFE` runs around the end of memory. -/
theorem step_relocated_call :
    let b : Flat := { memory := (Memory.zero.load 0x0100 [0xCD, 0x34, 0x12]).load 0xFFFE [0xCD, 0x34, 0x12] }
    let c : Cpu Flat := ⟨{ pc := 0x0100, sp := 0x8000 }, 0, .z80, b⟩
    let c' : Cpu Flat := ⟨{ pc := 0xFFFE, sp := 0x8000 }, 0, .z80, b⟩
    c.Relocates c' ∧ c.step.2.bus = b.withMemory (b.memory.setWord 0x7FFE 0x0103) ∧
      c'.step.2.bus = b.withMemory (b.memory.setWord 0x7FFE 1) ∧ c'.step.2.regs.pc = c.step.2.regs.pc := by
  intro b c c'
  have h : c.Relocates c' := by
    refine ⟨rfl, rfl, rfl, fun k hk => ?_⟩
    have hcases : k = 0 ∨ k = 1 ∨ k = 2 ∨ k = 3 := by omega
    rcases hcases with rfl | rfl | rfl | rfl <;> simp [c, c', b, Memory.load, Memory.get_set]
  have h₀ : b.memory.get 0x0100 = 0xCD := by simp [b, Memory.load, Memory.get_set]
  have hd : (decode c.dialect c.regs.pc c.bus).1 =
      .ok ⟨(Descriptor.zilogOnly "call" .immediateWord .none 3 17 .call).orIntel "call" "" "", .base⟩ :=
    decode_of_base (by rw [show c.bus.memory.get c.regs.pc = 0xCD from h₀]; decide +kernel) rfl
  have hstep := (step_relocated h).2.2.2.2.2
  rw [hd] at hstep
  obtain ⟨⟨hbus, hbus'⟩, hpc⟩ := hstep
  have hsp : c.regs.sp - 2 = 0x7FFE := by decide
  have hback : c.regs.pc + BitVec.ofNat 16 3 = 0x0103 := by decide
  have hback' : c'.regs.pc + BitVec.ofNat 16 3 = 1 := by decide
  exact ⟨h, hsp ▸ hback ▸ hbus, hsp ▸ hback' ▸ hbus', hpc⟩

/-- A jump on a condition is not always at the same address, nor always as far: `jp nz,1234h` at 0 and
    at `0x1000` goes on behind itself where Z is set, and at `0x1234` where it is not. -/
theorem jump_on_condition_moves :
    let b : Flat := { memory := (Memory.zero.load 0 [0xC2, 0x34, 0x12]).load 0x1000 [0xC2, 0x34, 0x12] }
    let c (z : Bool) (pc : Word) : Cpu Flat := ⟨{ pc, f := { z } }, 0, .z80, b⟩
    (decode .z80 0 b).1.toOption.map (·.descriptor.form.mnemonic) = some "jp" ∧
      (∀ z, (c z 0).Relocates (c z 0x1000)) ∧
      (c true 0x1000).step.2.regs.pc ≠ (c true 0).step.2.regs.pc ∧
      (c false 0x1000).step.2.regs.pc - 0x1000 ≠ (c false 0).step.2.regs.pc - 0 := by
  intro b c
  let d := (Descriptor.zilogOnly "jp" (conditionOperand .nz) .immediateWord 3 10 (.jumpIf .nz)).orIntel "jnz" "" ""
  have hrelocates : ∀ z, (c z 0).Relocates (c z 0x1000) := by
    refine fun z => ⟨rfl, rfl, rfl, fun k hk => ?_⟩
    have hcases : k = 0 ∨ k = 1 ∨ k = 2 ∨ k = 3 := by omega
    rcases hcases with rfl | rfl | rfl | rfl <;> simp [c, b, Memory.load, Memory.get_set]
  have hdecode : ∀ z a, b.memory.get a = 0xC2 → (decode (c z a).dialect (c z a).regs.pc b).1 = .ok ⟨d, .base⟩ := by
    intro z a ha
    exact decode_of_base (by rw [show b.memory.get (c z a).regs.pc = 0xC2 from ha]; decide +kernel) rfl
  have hpc : ∀ z a, b.memory.get a = 0xC2 → b.memory.getWord (a + BitVec.ofNat 16 1) = 0x1234 →
      (c z a).step.2.regs.pc = if z then a + 3 else 0x1234 := by
    intro z a ha ht
    have hperform : (Action.jumpIf .nz).perform (Instruction.site ⟨d, .base⟩ a) ⟨(c z a).regs.refresh 1, b⟩ =
        (.branch (!z) (b.memory.getWord (a + BitVec.ofNat 16 1)), ⟨(c z a).regs.refresh 1, b⟩) := rfl
    rw [step_of_decode (hdecode z a ha) hperform, ht]
    cases z <;> rfl
  have h₀ : b.memory.get 0 = 0xC2 := by simp [b, Memory.load, Memory.get_set]
  have h₁ : b.memory.get 0x1000 = 0xC2 := by simp [b, Memory.load, Memory.get_set]
  have ht₀ : b.memory.getWord (0 + BitVec.ofNat 16 1) = 0x1234 := by
    simp [b, Memory.getWord, Memory.load, Memory.get_set]
    decide
  have ht₁ : b.memory.getWord (0x1000 + BitVec.ofNat 16 1) = 0x1234 := by
    simp [b, Memory.getWord, Memory.load, Memory.get_set]
    decide
  refine ⟨?_, hrelocates, ?_, ?_⟩
  · rw [show (decode .z80 0 b).1 = .ok ⟨d, .base⟩ from hdecode true 0 h₀]
    rfl
  · rw [hpc true 0 h₀ ht₀, hpc true 0x1000 h₁ ht₁]
    decide
  · rw [hpc false 0 h₀ ht₀, hpc false 0x1000 h₁ ht₁]
    decide

end Cpu

end Micro80
