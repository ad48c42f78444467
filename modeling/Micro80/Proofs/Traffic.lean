/-
  Micro80.Proofs.Traffic — what a step asks of the bus, in order. For every action there
  is written down which operand bytes it reads and in which order, what data it reads and
  what it writes (`operandOrder`, `reads`, `writes`). On a bus under observation an action
  leaves just that behind and is otherwise the action that it is (`perform_observed`); so
  is decoding (`decode_observed`), and with it the step (`step_observed_of_decode`). Which
  bytes of the instruction these are is read off its text (`fetches_of_slot`).

  Proved, for every state of either dialect and every instruction that decodes:
  - `step_traffic`: a step reads the bytes of the instruction, each once and the opcode
    first, then data, and then it writes; it uses one port at most, and what it reads is
    what was there before the step. A call that is not taken reads its opcode alone.
-/

import Micro80.Host.Recorded
import Micro80.Proofs.ControlFlow
import Micro80.Proofs.Decoding

namespace Micro80

open Bus (Flat Recorded Access)

/-! ## Data -/

/-- What an instruction reads besides its own bytes; a word has its low byte first. -/
inductive DataRead where
  | none
  | byte (a : Word)
  | word (a : Word)
  | port (p : Byte)

/-- What it writes: a word upward, low byte first, or downward from the stack pointer, high
    byte first. -/
inductive DataWrite where
  | none
  | byte (a : Word) (v : Byte)
  | word (a w : Word)
  | stack (sp w : Word)
  | port (p v : Byte)

namespace Bus.Access

def isInward : Access → Bool
  | read .. | input .. => true
  | _ => false

def isOutward : Access → Bool
  | write .. | output .. => true
  | _ => false

def isPort : Access → Bool
  | input .. | output .. => true
  | _ => false

end Bus.Access

def Memory.noted (m : Memory) (a : Word) : Access := .read a (m.get a)

def DataRead.accesses (b : Flat) : DataRead → List Access
  | none => []
  | byte a => [b.memory.noted a]
  | word a => [b.memory.noted a, b.memory.noted (a + 1)]
  | port p => [.input p (b.getInput p)]

namespace DataWrite

def accesses : DataWrite → List Access
  | none => []
  | byte a v => [.write a v]
  | word a w => [.write a w.low, .write (a + 1) w.high]
  | stack sp w => [.write (sp - 1) w.high, .write (sp - 2) w.low]
  | port p v => [.output p v]

def apply (b : Flat) : DataWrite → Flat
  | none => b
  | byte a v => b.withMemory (b.memory.set a v)
  | word a w => b.withMemory (b.memory.setWord a w)
  | stack sp w => b.withMemory ((b.memory.set (sp - 1) w.high).set (sp - 2) w.low)
  | port p v => { b with outputs := b.outputs.push (p, v) }

end DataWrite

/-! ## The traffic of actions -/

namespace Site

def operand (s : Site) (k : Nat) : Word := s.operands + BitVec.ofNat 16 k

theorem operand_zero (s : Site) : s.operand 0 = s.operands := BitVec.add_zero s.operands

def immediate (s : Site) : Word := s.operands + if s.pointer = .hl then 0 else 1

end Site

namespace Action

/-- The operand bytes of an action in the order of reading; an immediate byte is read before the
    displacement in front of it. -/
def operandOrder (x : Pointer) : Action → List Nat
  | load .cell _ | load _ .cell | increment .cell | decrement .cell | combine _ .cell => if x = .hl then [] else [0]
  | loadImmediate .cell => if x = .hl then [0] else [1, 0]
  | loadImmediate (.reg _) | combineImmediate _ | outputImmediate | inputImmediate => if x = .hl then [0] else [1]
  | loadPairImmediate _ | storeAbsolute | fetchAbsolute | storePairAbsolute _ | fetchPairAbsolute _ => [0, 1]
  | jump | jumpIf _ | call | callIf _ => [0, 1]
  | jumpRelative | jumpRelativeIf _ | countDown => [0]
  | _ => []

def isCallIf : Action → Bool
  | callIf _ => true
  | _ => false

/-- The addresses of the operand bytes that are read: a call that is not taken reads none. -/
def codeReads (s : Site) (f : Flags) : Action → List Word
  | callIf cc => if cc.holds f then [s.operand 0, s.operand 1] else []
  | a => (a.operandOrder s.pointer).map s.operand

theorem codeReads_eq {a : Action} (h : a.isCallIf = false) (s : Site) (f : Flags) :
    a.codeReads s f = (a.operandOrder s.pointer).map s.operand := by
  cases a with
  | callIf cc => cases h
  | _ => rfl

/-- A displacement stands behind an index register alone. -/
theorem codeReads_of_displaced {a : Action} {s : Site} (h : a.isCallIf = false)
    (ho : a.operandOrder s.pointer = if s.pointer = .hl then [] else [0]) (f : Flags) :
    a.codeReads s f = if s.pointer = .hl then [] else [s.operands] := by
  rw [codeReads_eq h, ho]
  by_cases hx : s.pointer = .hl
  · rw [if_pos hx, if_pos hx]
    rfl
  · rw [if_neg hx, if_neg hx, List.map_singleton, Site.operand_zero]

def reads (s : Site) (m : Machine Flat) : Action → DataRead
  | load _ .cell | increment .cell | decrement .cell | combine _ .cell => .byte (s.cell m)
  | fetchIndirect p => .byte (m.regs.pair s.pointer p)
  | fetchAbsolute => .byte (m.bus.memory.getWord s.operands)
  | fetchPairAbsolute _ => .word (m.bus.memory.getWord s.operands)
  | pop _ | exchangeStack | ret | retInterrupt => .word m.regs.sp
  | retIf cc => if cc.holds m.regs.f then .word m.regs.sp else .none
  | rotateDigitsLeft | rotateDigitsRight | copyBlock _ | searchBlock _ => .byte m.regs.hl
  | inputImmediate => .port (m.bus.memory.get s.immediate)
  | input _ => .port m.regs.c
  | _ => .none

def writes (s : Site) (m : Machine Flat) : Action → DataWrite
  | load .cell src => .byte (s.cell m) (m.byte s src)
  | loadImmediate .cell => .byte (s.cell m) (m.bus.memory.get s.immediate)
  | increment .cell => .byte (s.cell m) (Alu.inc m.regs.f (m.byte s .cell)).1
  | decrement .cell => .byte (s.cell m) (Alu.dec m.regs.f (m.byte s .cell)).1
  | storeIndirect p => .byte (m.regs.pair s.pointer p) m.regs.a
  | storeAbsolute => .byte (m.bus.memory.getWord s.operands) m.regs.a
  | storePairAbsolute src => .word (m.bus.memory.getWord s.operands) (m.regs.pair s.pointer src)
  | exchangeStack => .word m.regs.sp (m.regs.pointer s.pointer)
  | rotateDigitsLeft => .byte m.regs.hl ((m.bus.memory.get m.regs.hl <<< 4) ||| (m.regs.a &&& 0x0F))
  | rotateDigitsRight => .byte m.regs.hl ((m.regs.a <<< 4) ||| (m.bus.memory.get m.regs.hl >>> 4))
  | copyBlock _ => .byte m.regs.de (m.bus.memory.get m.regs.hl)
  | push src => .stack m.regs.sp (m.regs.pair s.pointer src)
  | call | restart _ => .stack m.regs.sp s.next
  | callIf cc => if cc.holds m.regs.f then .stack m.regs.sp s.next else .none
  | outputImmediate => .port (m.bus.memory.get s.immediate) m.regs.a
  | output src => .port m.regs.c (m.regs.get src)
  | _ => .none

/-- Everything that an action asks of the bus. -/
def traffic (s : Site) (m : Machine Flat) (a : Action) : List Access :=
  (a.codeReads s m.regs.f).map m.bus.memory.noted ++ (a.reads s m).accesses m.bus ++ (a.writes s m).accesses

end Action

/-! ## Observation -/

def Machine.observed (m : Machine Flat) (l : Array Access) : Machine (Recorded Flat) := ⟨m.regs, ⟨m.bus, l⟩⟩

namespace Action

/-- An observed action does what it does unobserved, and its traffic is written down. -/
theorem perform_observed {a : Action} (ha : a ≠ .load .cell .cell) (s : Site) (m : Machine Flat) (l : Array Access) :
    a.perform s (m.observed l) = ((a.perform s m).1, (a.perform s m).2.observed (l ++ a.traffic s m)) := by
  obtain ⟨start, operands, next, x⟩ := s
  have h0 : (⟨start, operands, next, x⟩ : Site).operand 0 = operands := Site.operand_zero _
  cases a with
  | load dst src =>
    cases dst with
    | reg r =>
      cases src with
      | reg q => rfl
      | cell =>
        rw [traffic, codeReads_of_displaced rfl rfl]
        cases x <;> rfl
    | cell =>
      cases src with
      | reg q =>
        rw [traffic, codeReads_of_displaced rfl rfl]
        cases x <;> rfl
      | cell => exact absurd rfl ha
  | loadImmediate dst =>
    cases dst with
    | reg r => cases x <;> rfl
    | cell =>
      cases x with
      | hl => rfl
      | ix | iy =>
        simp only [traffic, codeReads, operandOrder, reduceCtorEq, if_false, List.map_cons, List.map_nil, h0]
        rfl
  | combine op src =>
    cases src with
    | reg r => rfl
    | cell =>
      rw [traffic, codeReads_of_displaced rfl rfl]
      cases x <;> rfl
  | increment dst | decrement dst =>
    cases dst with
    | reg r => rfl
    | cell =>
      rw [traffic, codeReads_of_displaced rfl rfl]
      cases x <;> rfl
  | combineImmediate op => cases x <;> rfl
  | outputImmediate | inputImmediate => cases x <;> rfl
  | jumpRelative | jumpRelativeIf cc | countDown | jump | jumpIf cc | call | loadPairImmediate p | storeAbsolute
  | fetchAbsolute | storePairAbsolute p | fetchPairAbsolute p =>
    simp only [traffic, codeReads, operandOrder, List.map_cons, List.map_nil, h0]
    rfl
  | callIf cc =>
    by_cases hc : cc.holds m.regs.f = true
    · rw [perform_callIf hc, perform_callIf (m := m.observed l) hc]
      simp only [traffic, codeReads, reads, writes, if_pos hc, h0]
      rfl
    · rw [perform_callIf_skip hc, perform_callIf_skip (m := m.observed l) hc]
      simp only [traffic, codeReads, reads, writes, if_neg hc]
      rfl
  | retIf cc =>
    by_cases hc : cc.holds m.regs.f = true
    · rw [perform_retIf hc, perform_retIf (m := m.observed l) hc]
      simp only [traffic, reads, if_pos hc]
      rfl
    · rw [perform_retIf_skip hc, perform_retIf_skip (m := m.observed l) hc]
      simp only [traffic, reads, if_neg hc]
      rfl
  | _ => rfl

/-- An action leaves the bus as its write leaves it. -/
theorem perform_bus (a : Action) (s : Site) (m : Machine Flat) :
    (a.perform s m).2.bus = (a.writes s m).apply m.bus := by
  obtain ⟨start, operands, next, x⟩ := s
  cases a with
  | load dst src => cases dst <;> cases src <;> cases x <;> rfl
  | loadImmediate dst => cases dst <;> cases x <;> rfl
  | combine op src => cases src <;> cases x <;> rfl
  | increment dst | decrement dst => cases dst <;> cases x <;> rfl
  | callIf cc =>
    by_cases hc : cc.holds m.regs.f = true
    · rw [perform_callIf hc, writes, if_pos hc]
      rfl
    · rw [perform_callIf_skip hc, writes, if_neg hc]
      rfl
  | retIf cc =>
    by_cases hc : cc.holds m.regs.f = true
    · rw [perform_retIf hc]
      rfl
    · rw [perform_retIf_skip hc]
      rfl
  | _ => rfl

end Action

/-! ## Decoding, observed -/

theorem decode_observed (d : Dialect) (a : Word) (b : Flat) (l : Array Access) :
    decode d a (⟨b, l⟩ : Recorded Flat) =
      ((decode d a b).1, ⟨b, l ++ (b.memory.opcodeBytes d a).map b.memory.noted⟩) := by
  have hr : Bus.read (⟨b, l⟩ : Recorded Flat) a = (b.memory.get a, ⟨b, l.push (b.memory.noted a)⟩) := rfl
  have hb : Bus.read b a = (b.memory.get a, b) := rfl
  by_cases hl : d = .z80 ∧ b.memory.get a ∈ leadBytes
  · obtain ⟨rfl, hm⟩ := hl
    obtain ⟨p, hp⟩ := slot_of_mem_leadBytes hm
    rw [Memory.opcodeBytes, if_pos ⟨rfl, hm⟩]
    unfold decode
    simp only [hr, hb, hp]
    rfl
  · rw [Memory.opcodeBytes, if_neg hl]
    unfold decode
    simp only [hr, hb]
    cases d with
    | i8080 => rfl
    | z80 =>
      cases hs : Page.base.slot (b.memory.get a) with
      | lead p => exact absurd ⟨rfl, mem_leadBytes_of_slot hs⟩ hl
      | vacant => rfl
      | instruction e => rfl

theorem opcodeBytes_of_decode {d : Dialect} {a : Word} {b : Flat} {i : Instruction} (h : (decode d a b).1 = .ok i) :
    b.memory.opcodeBytes d a = (List.range i.page.width).map fun k => a + BitVec.ofNat 16 k := by
  have h0 := a.add_ofNat_zero
  by_cases hl : d = .z80 ∧ b.memory.get a ∈ leadBytes
  · obtain ⟨rfl, hm⟩ := hl
    obtain ⟨p, hp⟩ := slot_of_mem_leadBytes hm
    rw [decode_lead hp] at h
    obtain ⟨-, hi, -⟩ := Slot.eq_of_decode h
    rw [Memory.opcodeBytes, if_pos ⟨rfl, hm⟩, hi, Page.width_of_lead hp]
    exact congrArg (· :: _) h0.symm
  · rw [decode_first hl] at h
    obtain ⟨-, hi, -⟩ := Slot.eq_of_decode h
    rw [Memory.opcodeBytes, if_neg hl, hi]
    exact congrArg (· :: _) h0.symm

/-! ## The instruction's own bytes -/

/-- In which order a step reads the bytes of an instruction, as distances from the first. -/
def Form.fetchOrder (f : Form) (length : Nat) (flags : Flags) : List Nat :=
  if f.mnemonic = "call" ∧ f.holds? flags = some false then [0]
  else if f.dst.kind = .indexed ∧ f.src.kind = .immediate then [0, 1, 3, 2]
  else List.range length

theorem action_ne_load_cell {p : Page} {opcode : Byte} {d : Descriptor} (h : p.slot opcode = .instruction d) :
    d.action ≠ .load .cell .cell := by
  have checked : ∀ o, (p.slot o).all (fun d => d.action ≠ .load .cell .cell) = true := by
    cases p <;> decide +kernel
  exact of_decide_eq_true (Slot.of_all (checked opcode) h)

/-- The operand bytes that actions read are those that the instructions have. -/
theorem operandOrder_of_slot {p : Page} {opcode : Byte} {d : Descriptor} (h : p.slot opcode = .instruction d) :
    List.range p.width ++ (d.action.operandOrder p.pointer).map (p.width + ·) =
      if d.form.dst.kind = .indexed ∧ d.form.src.kind = .immediate then [0, 1, 3, 2] else List.range d.length := by
  have checked : ∀ o, (p.slot o).all (fun d =>
      List.range p.width ++ (d.action.operandOrder p.pointer).map (p.width + ·) =
        if d.form.dst.kind = .indexed ∧ d.form.src.kind = .immediate then [0, 1, 3, 2] else List.range d.length) =
      true := by
    cases p <;> decide +kernel
  exact of_decide_eq_true (Slot.of_all (checked opcode) h)

/-- A call with a condition has one opcode byte, and nothing else is spelled so. -/
theorem callIf_of_slot {p : Page} {opcode : Byte} {d : Descriptor} (h : p.slot opcode = .instruction d) :
    (d.action.isCallIf = true → p = .base) ∧
      (d.form.mnemonic = "call" ∧ d.form.dst.kind = .condition → d.action.isCallIf = true) := by
  have checked : ∀ o, (p.slot o).all (fun d => (d.action.isCallIf = true → p = .base) ∧
      (d.form.mnemonic = "call" ∧ d.form.dst.kind = .condition → d.action.isCallIf = true)) = true := by
    cases p <;> decide +kernel
  exact of_decide_eq_true (Slot.of_all (checked opcode) h)

theorem Form.kind_of_holds? {f : Form} {flags : Flags} (h : f.holds? flags = some false) : f.dst.kind = .condition := by
  by_cases hk : f.dst.kind = .condition
  · exact hk
  · rw [holds?, if_neg hk] at h
    cases h

theorem holds?_of_callIf {p : Page} {opcode : Byte} {d : Descriptor} (h : p.slot opcode = .instruction d)
    {cc : Condition} (ha : d.action = .callIf cc) (f : Flags) :
    d.form.mnemonic = "call" ∧ d.form.holds? f = some (cc.holds f) := by
  have hf := form_mem_forms h
  rw [ha] at hf
  have hd := List.mem_singleton.mp hf
  refine ⟨congrArg Form.mnemonic hd, ?_⟩
  exact Form.holds?_conditionOperand (congrArg Form.dst hd) f

/-- The bytes that a step reads of an instruction are read in the order that its text gives. -/
theorem fetches_of_slot {p : Page} {opcode : Byte} {d : Descriptor} (h : p.slot opcode = .instruction d) (a : Word)
    (f : Flags) :
    ((List.range p.width).map fun k => a + BitVec.ofNat 16 k) ++
        d.action.codeReads (Instruction.site ⟨d, p⟩ a) f =
      (d.form.fetchOrder d.length f).map fun k => a + BitVec.ofNat 16 k := by
  obtain ⟨hbase, hcall⟩ := callIf_of_slot h
  by_cases hidle : d.form.mnemonic = "call" ∧ d.form.holds? f = some false
  · have hif := hcall ⟨hidle.1, Form.kind_of_holds? hidle.2⟩
    rw [Form.fetchOrder, if_pos hidle, hbase hif]
    cases ha : d.action with
    | callIf cc =>
      have hn : cc.holds f = false := Option.some.inj ((holds?_of_callIf h ha f).2.symm.trans hidle.2)
      rw [Action.codeReads, if_neg (Bool.eq_false_iff.mp hn)]
      rfl
    | _ => rw [ha] at hif; cases hif
  · have hread : d.action.codeReads (Instruction.site ⟨d, p⟩ a) f =
        (d.action.operandOrder p.pointer).map (Instruction.site ⟨d, p⟩ a).operand := by
      cases ha : d.action with
      | callIf cc =>
        obtain ⟨hm, hh⟩ := holds?_of_callIf h ha f
        have hc : cc.holds f = true := by
          cases hc : cc.holds f with
          | true => rfl
          | false => exact absurd ⟨hm, hc ▸ hh⟩ hidle
        rw [Action.codeReads, if_pos hc]
        rfl
      | _ => exact Action.codeReads_eq rfl ..
    have hoperand : (Instruction.site ⟨d, p⟩ a).operand = (fun k => a + BitVec.ofNat 16 k) ∘ (p.width + ·) := by
      funext k
      rw [Site.operand, Function.comp, BitVec.ofNat_add, ← BitVec.add_assoc]
      rfl
    rw [hread, hoperand, ← List.map_map, ← List.map_append, operandOrder_of_slot h, Form.fetchOrder, if_neg hidle]

/-- Every byte of an instruction is read, and each once. -/
theorem fetchOrder_perm {p : Page} {opcode : Byte} {d : Descriptor} (h : p.slot opcode = .instruction d) {f : Flags}
    (hidle : ¬(d.form.mnemonic = "call" ∧ d.form.holds? f = some false)) :
    (d.form.fetchOrder d.length f).Perm (List.range d.length) := by
  have checked : ∀ o, (p.slot o).all (fun d =>
      d.form.dst.kind = .indexed ∧ d.form.src.kind = .immediate → d.length = 4) = true := by
    cases p <;> decide +kernel
  have hlength := of_decide_eq_true (Slot.of_all (checked opcode) h)
  rw [Form.fetchOrder, if_neg hidle]
  by_cases hd : d.form.dst.kind = .indexed ∧ d.form.src.kind = .immediate
  · rw [if_pos hd, hlength hd]
    decide
  · rw [if_neg hd]

/-- The opcode bytes are read first. -/
theorem range_prefix_fetchOrder {p : Page} {opcode : Byte} {d : Descriptor} (h : p.slot opcode = .instruction d)
    (f : Flags) : List.range p.width <+: d.form.fetchOrder d.length f := by
  by_cases hidle : d.form.mnemonic = "call" ∧ d.form.holds? f = some false
  · obtain ⟨hbase, hcall⟩ := callIf_of_slot h
    have hp := hbase (hcall ⟨hidle.1, Form.kind_of_holds? hidle.2⟩)
    rw [Form.fetchOrder, if_pos hidle, hp]
    exact List.prefix_rfl
  · rw [Form.fetchOrder, if_neg hidle, ← operandOrder_of_slot h]
    exact List.prefix_append _ _

/-! ## Order and ports -/

theorem DataRead.isOutward_of_mem {b : Flat} {r : DataRead} {x : Access} (h : x ∈ r.accesses b) :
    x.isOutward = false := by
  cases r with
  | none => cases h
  | byte a => cases List.mem_singleton.mp h; rfl
  | word a =>
    rcases List.mem_cons.mp h with rfl | h
    · rfl
    · cases List.mem_singleton.mp h; rfl
  | port p => cases List.mem_singleton.mp h; rfl

/-- What is read is what is there. -/
theorem DataRead.eq_of_mem {b : Flat} {r : DataRead} {a : Word} {v : Byte} (h : .read a v ∈ r.accesses b) :
    v = b.memory.get a := by
  cases r with
  | none => cases h
  | byte a => cases List.mem_singleton.mp h; rfl
  | word a =>
    rcases List.mem_cons.mp h with h | h
    · cases h; rfl
    · cases List.mem_singleton.mp h; rfl
  | port p => cases List.mem_singleton.mp h

theorem DataWrite.isInward_of_mem {w : DataWrite} {x : Access} (h : x ∈ w.accesses) : x.isInward = false := by
  cases w with
  | none => cases h
  | byte a v => cases List.mem_singleton.mp h; rfl
  | word a v =>
    rcases List.mem_cons.mp h with rfl | h
    · rfl
    · cases List.mem_singleton.mp h; rfl
  | stack sp v =>
    rcases List.mem_cons.mp h with rfl | h
    · rfl
    · cases List.mem_singleton.mp h; rfl
  | port p v => cases List.mem_singleton.mp h; rfl

/-- What comes in comes before what goes out. -/
theorem pairwise_append_of_direction {l k : List Access} (hl : ∀ x ∈ l, x.isOutward = false)
    (hk : ∀ x ∈ k, x.isInward = false) : (l ++ k).Pairwise fun x y => x.isOutward = true → y.isInward = false := by
  refine List.pairwise_append.mpr ⟨?_, ?_, fun _ _ y hy _ => hk y hy⟩
  · exact List.pairwise_of_forall_mem_list fun x hx y _ ho => absurd ho (Bool.eq_false_iff.mp (hl x hx))
  · exact List.pairwise_of_forall_mem_list fun _ _ y hy _ => hk y hy

namespace Action

theorem writes_of_reads_port {a : Action} {s : Site} {m : Machine Flat} {p : Byte} (h : a.reads s m = .port p) :
    a.writes s m = .none := by
  cases a with
  | inputImmediate => rfl
  | input dst => rfl
  | retIf cc => rfl
  | load dst src => cases dst <;> cases src <;> cases h
  | combine op src => rfl
  | increment dst | decrement dst => cases dst <;> cases h
  | _ => cases h

/-- No action uses two ports, nor one twice. -/
theorem countP_isPort (a : Action) (s : Site) (m : Machine Flat) :
    ((a.reads s m).accesses m.bus ++ (a.writes s m).accesses).countP Access.isPort ≤ 1 := by
  have hw : (a.writes s m).accesses.countP Access.isPort ≤ 1 := by
    cases a.writes s m <;> simp [DataWrite.accesses, Access.isPort]
  cases hr : a.reads s m with
  | port p =>
    rw [writes_of_reads_port hr]
    exact Nat.le_refl 1
  | none | byte x | word x => exact hw

end Action

/-! ## Steps, observed -/

namespace Instruction

def reads (i : Instruction) (c : Cpu Flat) : DataRead :=
  i.descriptor.action.reads (i.site c.regs.pc) ⟨c.regs.refresh i.page.width, c.bus⟩

def writes (i : Instruction) (c : Cpu Flat) : DataWrite :=
  i.descriptor.action.writes (i.site c.regs.pc) ⟨c.regs.refresh i.page.width, c.bus⟩

end Instruction

namespace Cpu

def observed (c : Cpu Flat) (l : Array Access) : Cpu (Recorded Flat) := ⟨c.regs, c.cycles, c.dialect, ⟨c.bus, l⟩⟩

/-- What a step asks of the bus, in order. -/
def accesses (c : Cpu Flat) : List Access := (c.observed #[]).step.2.bus.accesses.toList

theorem execute_observed {c : Cpu Flat} {i : Instruction} (ha : i.descriptor.action ≠ .load .cell .cell)
    (l : Array Access) :
    execute i (c.observed l) = ((execute i c).1, (execute i c).2.observed (l ++
      i.descriptor.action.traffic (i.site c.regs.pc) ⟨c.regs.refresh i.page.width, c.bus⟩)) := by
  obtain ⟨o, m, hm⟩ : ∃ o m,
      i.descriptor.action.perform (i.site c.regs.pc) ⟨c.regs.refresh i.page.width, c.bus⟩ = (o, m) := ⟨_, _, rfl⟩
  have hp := Action.perform_observed ha (i.site c.regs.pc) ⟨c.regs.refresh i.page.width, c.bus⟩ l
  rw [hm] at hp
  simp only [Machine.observed] at hp
  simp only [execute, observed, hm, hp]

/-- An observed step does what it does unobserved. -/
theorem step_observed_of_decode {c : Cpu Flat} {i : Instruction} (h : (decode c.dialect c.regs.pc c.bus).1 = .ok i)
    (l : Array Access) :
    (c.observed l).step = (c.step.1, c.step.2.observed (l ++
      (c.bus.memory.opcodeBytes c.dialect c.regs.pc).map c.bus.memory.noted ++
        i.descriptor.action.traffic (i.site c.regs.pc) ⟨c.regs.refresh i.page.width, c.bus⟩)) := by
  have hd : decode c.dialect c.regs.pc c.bus = (.ok i, c.bus) := Prod.ext h (decode_snd ..)
  have ho := decode_observed c.dialect c.regs.pc c.bus l
  rw [h] at ho
  have hs : c.step = execute i c := by
    simp only [step, hd]
  rw [hs, ← execute_observed (action_ne_load_cell (slot_of_decode h))]
  simp only [step, observed, ho]

/-- The accesses of a step in three parts. -/
theorem accesses_of_decode {c : Cpu Flat} {i : Instruction} (h : (decode c.dialect c.regs.pc c.bus).1 = .ok i) :
    c.accesses = ((i.descriptor.form.fetchOrder i.descriptor.length c.regs.f).map fun k =>
        c.bus.memory.noted (c.regs.pc + BitVec.ofNat 16 k)) ++
      (i.reads c).accesses c.bus ++ (i.writes c).accesses := by
  have hfetch := fetches_of_slot (slot_of_decode h) c.regs.pc c.regs.f
  rw [← opcodeBytes_of_decode h] at hfetch
  have hlog : c.accesses = (c.bus.memory.opcodeBytes c.dialect c.regs.pc).map c.bus.memory.noted ++
      i.descriptor.action.traffic (i.site c.regs.pc) ⟨c.regs.refresh i.page.width, c.bus⟩ := by
    rw [accesses, step_observed_of_decode h]
    simp only [observed, Array.toList_appendList, List.nil_append]
  calc c.accesses
      = ((c.bus.memory.opcodeBytes c.dialect c.regs.pc ++
            i.descriptor.action.codeReads (i.site c.regs.pc) c.regs.f).map c.bus.memory.noted) ++
          (i.reads c).accesses c.bus ++ (i.writes c).accesses := by
        rw [hlog, Action.traffic, List.map_append, List.append_assoc, List.append_assoc, List.append_assoc]
        rfl
    _ = _ := by
        rw [hfetch, List.map_map]
        rfl

/-- A step that finds no instruction has read the bytes to see that. -/
theorem accesses_of_decode_error {c : Cpu Flat} {opcode : Byte}
    (h : (decode c.dialect c.regs.pc c.bus).1 = .error opcode) :
    c.accesses = (c.bus.memory.opcodeBytes c.dialect c.regs.pc).map c.bus.memory.noted := by
  have ho := decode_observed c.dialect c.regs.pc c.bus #[]
  rw [h] at ho
  simp only [accesses, step, observed, ho, Array.toList_appendList, List.nil_append]

/-- A step reads the instruction, then data, and then writes; what it reads is what was there before. -/
theorem step_traffic {c : Cpu Flat} {i : Instruction} (h : (decode c.dialect c.regs.pc c.bus).1 = .ok i) :
    let order := i.descriptor.form.fetchOrder i.descriptor.length c.regs.f
    c.accesses = (order.map fun k => c.bus.memory.noted (c.regs.pc + BitVec.ofNat 16 k)) ++
        (i.reads c).accesses c.bus ++ (i.writes c).accesses ∧
      c.step.2.bus = (i.writes c).apply c.bus ∧
      List.range i.page.width <+: order ∧
      (if i.descriptor.form.mnemonic = "call" ∧ i.descriptor.form.holds? c.regs.f = some false then order = [0]
        else order.Perm (List.range i.descriptor.length)) ∧
      (c.accesses.Pairwise fun x y => x.isOutward = true → y.isInward = false) ∧
      c.accesses.countP Access.isPort ≤ 1 ∧
      ∀ a v, .read a v ∈ c.accesses → v = c.bus.memory.get a := by
  intro order
  have hslot := slot_of_decode h
  have ha : c.accesses = (order.map fun k => c.bus.memory.noted (c.regs.pc + BitVec.ofNat 16 k)) ++
      (i.reads c).accesses c.bus ++ (i.writes c).accesses := accesses_of_decode h
  have hb : c.step.2.bus = (i.writes c).apply c.bus := by
    rw [step_of_decode h rfl]
    exact Action.perform_bus ..
  have hfetch : ∀ x ∈ order.map fun k => c.bus.memory.noted (c.regs.pc + BitVec.ofNat 16 k),
      ∃ a, c.bus.memory.noted a = x := by
    intro x hx
    obtain ⟨k, -, hk⟩ := List.mem_map.mp hx
    exact ⟨_, hk⟩
  refine ⟨ha, hb, range_prefix_fetchOrder hslot _, ?_, ?_, ?_, ?_⟩
  · by_cases hidle : i.descriptor.form.mnemonic = "call" ∧ i.descriptor.form.holds? c.regs.f = some false
    · rw [if_pos hidle]
      exact if_pos hidle
    · rw [if_neg hidle]
      exact fetchOrder_perm hslot hidle
  · rw [ha]
    refine pairwise_append_of_direction ?_ fun _ => DataWrite.isInward_of_mem
    intro x hx
    rcases List.mem_append.mp hx with hx | hx
    · obtain ⟨a, rfl⟩ := hfetch x hx
      rfl
    · exact DataRead.isOutward_of_mem hx
  · have hcode : (order.map fun k => c.bus.memory.noted (c.regs.pc + BitVec.ofNat 16 k)).countP Access.isPort = 0 := by
      refine List.countP_eq_zero.mpr fun x hx => ?_
      obtain ⟨a, rfl⟩ := hfetch x hx
      exact Bool.false_ne_true
    rw [ha, List.append_assoc, List.countP_append, hcode, Nat.zero_add]
    exact Action.countP_isPort ..
  · intro a v hx
    rw [ha] at hx
    rcases List.mem_append.mp hx with hx | hx
    · rcases List.mem_append.mp hx with hx | hx
      · obtain ⟨_, hx⟩ := hfetch _ hx
        cases hx
        rfl
      · exact DataRead.eq_of_mem hx
    · cases DataWrite.isInward_of_mem hx

/-- With 3 in IX, `ld (ix-1),2ah` writes over its own displacement, having read it last. -/
theorem step_traffic_overwritten :
    let c : Cpu Flat := ⟨{ ix := 3 }, 0, .z80, { memory := Memory.zero.load 0 [0xDD, 0x36, 0xFF, 0x2A] }⟩
    let d := Descriptor.zilogOnly "ld" (.indexed "ix") .immediate 4 19 (.loadImmediate .cell)
    (decode c.dialect c.regs.pc c.bus).1 = .ok ⟨d, .dd⟩ ∧
      c.accesses = [.read 0 0xDD, .read 1 0x36, .read 3 0x2A, .read 2 0xFF, .write 2 0x2A] := by
  intro c d
  have h₀ : c.bus.memory.get 0 = 0xDD := by simp [c, Memory.load, Memory.get_set]
  have h₁ : c.bus.memory.get 1 = 0x36 := by simp [c, Memory.load, Memory.get_set]
  have h₂ : c.bus.memory.get 2 = 0xFF := by simp [c, Memory.load, Memory.get_set]
  have h₃ : c.bus.memory.get 3 = 0x2A := by simp [c, Memory.load]
  have h : (decode c.dialect c.regs.pc c.bus).1 = .ok ⟨d, .dd⟩ :=
    decode_of_lead (by rw [h₀]; decide +kernel) (by rw [show c.regs.pc + 1 = 1 from rfl, h₁]; decide +kernel)
  have ha : c.accesses = [.read 0 (c.bus.memory.get 0), .read 1 (c.bus.memory.get 1), .read 3 (c.bus.memory.get 3),
      .read 2 (c.bus.memory.get 2), .write (Word.displace 3 (c.bus.memory.get 2)) (c.bus.memory.get 3)] :=
    (step_traffic (c := c) h).1
  rw [h₀, h₁, h₂, h₃] at ha
  exact ⟨h, ha⟩

end Cpu

end Micro80
