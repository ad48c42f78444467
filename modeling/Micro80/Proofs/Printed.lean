/-
  Micro80.Proofs.Printed — the disassembly and the processor read the same instruction.
  They work out separately where operands stand: the disassembly from the kinds of both
  operands, the processor from the pair that HL stands for.

  Proved, for every state of either dialect:
  - `disassembly_agrees`: a step finds no instruction just where the disassembly and the
    lookup find none; otherwise what is printed is spelled as the description has it, and
    every number in it is the number that the step uses (`Shows`).
-/

import Micro80.Proofs.Meaning
import Micro80.Proofs.Text
import Micro80.Proofs.Traffic

namespace Micro80

open Bus (Flat Access)
open Text (Hex.byte)

/-! ## What a step uses -/

namespace Bus.Access

def address? : Access → Option Word
  | read a _ | write a _ => some a
  | _ => none

def port? : Access → Option Byte
  | input p _ | output p _ => some p
  | _ => none

end Bus.Access

namespace Form

/-- Whether a transfer of control goes through: a count that is not at its end, or a condition
    that holds. -/
def taken? (f : Form) (r : Registers) : Option Bool :=
  if f.mnemonic = "djnz" then some (r.b - 1 != 0) else f.holds? r.f

theorem taken?_conditionOperand {f : Form} {cc : Condition} (hm : f.mnemonic ≠ "djnz")
    (hd : f.dst = Encoding.conditionOperand cc) (r : Registers) : f.taken? r = some (cc.holds r.f) := by
  rw [taken?, if_neg hm, holds?_conditionOperand hd]

/-- What the text says is to happen, the source being `y`. -/
def effectOf (f : Form) (operands : Word) (m : Machine Flat) (y : Word) : Option (Machine Flat) := do
  let dst ← f.locate operands m f.target
  let x ← dst.fetch m
  dst.store ⟨{ m.regs with f := f.flags m.regs x y }, m.bus⟩ (← result f.mnemonic m.regs.f.c x y)

/-- A number in the instruction itself is the source. -/
theorem effect_of_literal {f : Form} {operands : Word} {m : Machine Flat} {y : Word}
    (hf : f.mnemonic ∉ ["push", "pop", "ex"]) (hl : f.locate operands m f.src = some (.literal y)) :
    f.effect operands m = f.effectOf operands m y := by
  simp only [List.mem_cons, List.not_mem_nil, or_false, not_or] at hf
  unfold effect
  split
  · exact absurd ‹_› hf.1
  · exact absurd ‹_› hf.2.1
  · exact absurd ‹_› hf.2.2
  · simp only [effectOf, hl, Location.fetch, Option.bind_eq_bind, Option.bind_some]

end Form

/-- How a restart is written: Intel syntax counts the vectors. -/
def IsVector (text : String) (v : Byte) : Dialect → Prop
  | .z80 => ∃ digits, IsHex digits v ∧ text = "$" ++ digits
  | .i8080 => text = toString (v.toNat / 8)

namespace Cpu

/-- A step of `c` goes to `w` if the transfer is taken, and on to the next instruction if not. -/
def GoesTo (c : Cpu Flat) (i : Instruction) (w : Word) : Prop :=
  ∃ taken, i.descriptor.form.taken? c.regs = some taken ∧
    c.step.2.regs.pc = if taken then w else c.regs.pc + BitVec.ofNat 16 i.descriptor.length

/-- A step of `c` loads `y`, or combines it with what it goes to. -/
def Applies (c : Cpu Flat) (i : Instruction) (y : Word) : Prop :=
  ∃ m, i.descriptor.form.effectOf (c.regs.pc + BitVec.ofNat 16 i.page.width) ⟨c.regs.refresh i.page.width, c.bus⟩ y =
      some m ∧
    c.step = (none, ⟨{ m.regs with pc := c.regs.pc + BitVec.ofNat 16 i.descriptor.length },
      c.cycles + i.descriptor.cycles, c.dialect, m.bus⟩)

def data (c : Cpu Flat) (i : Instruction) : List Access := c.accesses.drop i.descriptor.length

/-- `text` is an operand of that kind and name, and the number in it is the one that a step of
    `c` uses. -/
def Shows (c : Cpu Flat) (i : Instruction) (kind : OperandKind) (name text : String) : Prop :=
  match kind with
  | .none => text = ""
  | .condition => text = name
  | .register => text = name ∧
      (i.descriptor.form.mnemonic = "rst" →
        ∃ v : Byte, IsVector text v c.dialect ∧ c.step.2.regs.pc = v.setWidth 16) ∧
      (i.descriptor.form.mnemonic = "im" → text = toString c.step.2.regs.im.toNat)
  | .registerIndirect => text = if name.isEmpty then "" else Disassembly.memoryName c.dialect name
  | .immediate => ∃ (digits : String) (v : Byte), IsHex digits v ∧ text = "$" ++ digits ∧ c.Applies i (v.setWidth 16)
  | .immediateExtended => ∃ (digits : String) (w : Word), IsHex digits w ∧ text = "$" ++ digits ∧
      if i.descriptor.form.mnemonic ∈ ["jp", "call"] then c.GoesTo i w else c.Applies i w
  | .indirect => ∃ (digits : String) (p : Byte), IsHex digits p ∧ text = "($" ++ digits ++ ")" ∧
      (c.data i).map Access.port? = [some p]
  | .extended => ∃ (digits : String) (w : Word), IsHex digits w ∧ text = "($" ++ digits ++ ")" ∧
      (c.data i).head?.bind Access.address? = some w
  | .displacement => ∃ (digits : String) (w : Word), IsHex digits w ∧ text = "$" ++ digits ∧ c.GoesTo i w
  | .indexed => ∃ (digits : String) (v : Byte) (negative : Bool) (x : Word), IsHex digits v ∧
      text = "(" ++ name ++ ((if negative then "-$" else "+$") ++ digits) ++ ")" ∧ c.regs.named? name = some x ∧
      c.data i ≠ [] ∧
      ∀ a ∈ c.data i, a.address? = some (if negative then x - v.setWidth 16 else x + v.setWidth 16)

end Cpu

/-! ## Numbers that actions use -/

namespace Action

def uses (x : Pointer) : OperandKind → Action → Bool
  | .immediateExtended, jump | .immediateExtended, jumpIf _ | .immediateExtended, call
  | .immediateExtended, callIf _ => true
  | .displacement, jumpRelative | .displacement, jumpRelativeIf _ | .displacement, countDown => true
  | .indirect, outputImmediate | .indirect, inputImmediate => x = .hl
  | .extended, storeAbsolute | .extended, fetchAbsolute | .extended, storePairAbsolute _
  | .extended, fetchPairAbsolute _ => true
  | .indexed, load .cell (.reg _) | .indexed, load (.reg _) .cell | .indexed, loadImmediate .cell
  | .indexed, combine _ .cell | .indexed, increment .cell | .indexed, decrement .cell => x ≠ .hl
  | _, _ => false

end Action

namespace Descriptor

def writesVector (d : Descriptor) : Bool :=
  match d.action with
  | .restart v => d.src = .none ∧ d.zilog.dst = "$" ++ Hex.byte v ∧ ∀ s ∈ d.intel, s.dst = toString (v.toNat / 8)
  | _ => d.form.mnemonic ≠ "rst"

def writesMode (d : Descriptor) : Bool :=
  match d.action with
  | .setInterruptMode mode => d.src = .none ∧ ∀ s ∈ d.spellings, s.dst = toString mode.toNat
  | _ => d.form.mnemonic ≠ "im"

/-- What the numbers in the text of an instruction are taken for: by its action, as the source
    of a load or of a combination, or as a name. -/
def NumbersUsed (p : Page) (d : Descriptor) : Prop :=
  (∀ k ∈ d.kinds, k ∈ [.indirect, .extended, .displacement, .indexed] ∨
    k = .immediateExtended ∧ d.form.mnemonic ∈ ["jp", "call"] → d.action.uses p.pointer k = true) ∧
  (∀ k ∈ d.kinds, k = .immediate ∨ k = .immediateExtended ∧ d.form.mnemonic ∉ ["jp", "call"] →
    d.src = k ∧ d.form.mnemonic ∈ Form.transfers ∧ d.form.mnemonic ∉ ["push", "pop", "ex"]) ∧
  (∀ s ∈ d.spellings, (d.dst = .indexed → s.dst = p.pointer.name) ∧ (d.src = .indexed → s.src = p.pointer.name)) ∧
  d.writesVector = true ∧ d.writesMode = true

instance (p : Page) (d : Descriptor) : Decidable (d.NumbersUsed p) := inferInstanceAs (Decidable (_ ∧ _))

end Descriptor

section
variable {p : Page} {opcode : Byte} {d : Descriptor} {dialect : Dialect} {spelling : Spelling}

theorem numbersUsed_of_slot (h : p.slot opcode = .instruction d) : d.NumbersUsed p := by
  have checked : ∀ o, (p.slot o).all (fun d => d.NumbersUsed p) = true := by
    cases p <;> decide +kernel
  exact of_decide_eq_true (Slot.of_all (checked opcode) h)

theorem uses_of_slot (h : p.slot opcode = .instruction d) {k : OperandKind} (hd : d.dst = k ∨ d.src = k)
    (hk : k ∈ [.indirect, .extended, .displacement, .indexed] ∨
      k = .immediateExtended ∧ d.form.mnemonic ∈ ["jp", "call"]) :
    d.action.uses p.pointer k = true := by
  obtain ⟨huses, -⟩ := numbersUsed_of_slot h
  exact huses k (Descriptor.mem_kinds hd) hk

/-- An immediate number is the source of a load or of a combination. -/
theorem literal_of_slot (h : p.slot opcode = .instruction d) {k : OperandKind} (hd : d.dst = k ∨ d.src = k)
    (hk : k = .immediate ∨ k = .immediateExtended ∧ d.form.mnemonic ∉ ["jp", "call"]) :
    d.src = k ∧ d.form.mnemonic ∈ Form.transfers ∧ d.form.mnemonic ∉ ["push", "pop", "ex"] := by
  obtain ⟨-, hliteral, -⟩ := numbersUsed_of_slot h
  exact hliteral k (Descriptor.mem_kinds hd) hk

/-- An index register goes by its name. -/
theorem index_of_slot (h : p.slot opcode = .instruction d) (hs : d.spelling? dialect = some spelling) :
    (d.dst = .indexed → spelling.dst = p.pointer.name) ∧ (d.src = .indexed → spelling.src = p.pointer.name) := by
  obtain ⟨-, -, hindex, -⟩ := numbersUsed_of_slot h
  exact hindex spelling (Descriptor.mem_spellings hs)

theorem vector_of_slot (h : p.slot opcode = .instruction d) (hs : d.spelling? dialect = some spelling)
    (hm : d.form.mnemonic = "rst") :
    ∃ v, d.action = .restart v ∧ d.src = .none ∧ IsVector spelling.dst v dialect := by
  obtain ⟨-, -, -, hv, -⟩ := numbersUsed_of_slot h
  unfold Descriptor.writesVector at hv
  cases ha : d.action with
  | restart v =>
    rw [ha] at hv
    obtain ⟨hsrc, hz, hi⟩ := of_decide_eq_true hv
    refine ⟨v, rfl, hsrc, ?_⟩
    cases dialect with
    | z80 => cases hs; exact ⟨_, isHex_byte v, hz⟩
    | i8080 => exact hi spelling hs
  | _ => rw [ha] at hv; exact absurd hm (of_decide_eq_true hv)

theorem mode_of_slot (h : p.slot opcode = .instruction d) (hs : d.spelling? dialect = some spelling)
    (hm : d.form.mnemonic = "im") :
    ∃ mode, d.action = .setInterruptMode mode ∧ d.src = .none ∧ spelling.dst = toString mode.toNat := by
  obtain ⟨-, -, -, -, hv⟩ := numbersUsed_of_slot h
  unfold Descriptor.writesMode at hv
  cases ha : d.action with
  | setInterruptMode mode =>
    rw [ha] at hv
    obtain ⟨hsrc, ht⟩ := of_decide_eq_true hv
    exact ⟨mode, rfl, hsrc, ht spelling (Descriptor.mem_spellings hs)⟩
  | _ => rw [ha] at hv; exact absurd hm (of_decide_eq_true hv)

end

/-! ## Actions -/

theorem Site.immediate_hl {s : Site} (h : s.pointer = .hl) : s.immediate = s.operands := by
  rw [immediate, if_pos h]
  exact BitVec.add_zero s.operands

theorem Site.cell_of_index {s : Site} (h : s.pointer ≠ .hl) (m : Machine Flat) :
    s.cell m = (m.regs.pointer s.pointer).displace (m.bus.memory.get s.operands) := by
  obtain ⟨start, operands, next, x⟩ := s
  cases x with
  | hl => exact absurd rfl h
  | ix => rfl
  | iy => rfl

namespace Action

variable {a : Action} {s : Site} {f : Form}

/-- A relative transfer of control goes a displacement past the next instruction. -/
theorem branch_relative (hf : f ∈ a.forms s.pointer) (hu : a.uses s.pointer .displacement = true) (r : Registers)
    (n : Nat) (b : Flat) : ∃ taken, f.taken? r = some taken ∧
      (a.perform s ⟨r.refresh n, b⟩).1 = .branch taken (s.next.displace (b.memory.get s.operands)) := by
  cases a with
  | jumpRelative => cases List.mem_singleton.mp hf; exact ⟨true, rfl, rfl⟩
  | jumpRelativeIf cc =>
    cases List.mem_singleton.mp hf
    exact ⟨cc.holds r.f, Form.taken?_conditionOperand (by simp) rfl r, rfl⟩
  | countDown => cases List.mem_singleton.mp hf; exact ⟨r.b - 1 != 0, rfl, rfl⟩
  | _ => cases hu

/-- An absolute one goes to the operand word. -/
theorem branch_absolute (hf : f ∈ a.forms s.pointer) (hu : a.uses s.pointer .immediateExtended = true) (r : Registers)
    (n : Nat) (b : Flat) : ∃ taken, f.taken? r = some taken ∧
      (a.perform s ⟨r.refresh n, b⟩).1 = .branch taken (b.memory.getWord s.operands) := by
  cases a with
  | jump => cases List.mem_singleton.mp hf; exact ⟨true, rfl, rfl⟩
  | jumpIf cc =>
    cases List.mem_singleton.mp hf
    exact ⟨cc.holds r.f, Form.taken?_conditionOperand (by simp) rfl r, rfl⟩
  | call => cases List.mem_singleton.mp hf; exact ⟨true, rfl, rfl⟩
  | callIf cc =>
    cases List.mem_singleton.mp hf
    refine ⟨cc.holds r.f, Form.taken?_conditionOperand (by simp) rfl r, ?_⟩
    by_cases hc : cc.holds r.f = true
    · rw [perform_callIf (m := ⟨r.refresh n, b⟩) hc, hc]
      rfl
    · rw [perform_callIf_skip (m := ⟨r.refresh n, b⟩) hc, Bool.eq_false_iff.mpr hc]
      rfl
  | _ => cases hu

theorem isCallIf_of_uses {x : Pointer} {k : OperandKind} (hk : k ≠ .immediateExtended) (hu : a.uses x k = true) :
    a.isCallIf = false := by
  cases a with
  | callIf cc =>
    cases k with
    | immediateExtended => exact absurd rfl hk
    | _ => cases hu
  | _ => rfl

variable (m : Machine Flat)

def data (a : Action) (s : Site) (m : Machine Flat) : List Access :=
  (a.reads s m).accesses m.bus ++ (a.writes s m).accesses

theorem data_port (hu : a.uses s.pointer .indirect = true) :
    (a.data s m).map Access.port? = [some (m.bus.memory.get s.operands)] := by
  cases a with
  | outputImmediate =>
    rw [data, writes, Site.immediate_hl (of_decide_eq_true hu)]
    rfl
  | inputImmediate =>
    rw [data, reads, Site.immediate_hl (of_decide_eq_true hu)]
    rfl
  | _ => cases hu

theorem data_absolute (hu : a.uses s.pointer .extended = true) :
    (a.data s m).head?.bind Access.address? = some (m.bus.memory.getWord s.operands) := by
  cases a with
  | storeAbsolute | fetchAbsolute | storePairAbsolute p | fetchPairAbsolute p => rfl
  | _ => cases hu

/-- Behind an index register there is one access to memory, or a read and a write of one cell. -/
theorem data_indexed (hu : a.uses s.pointer .indexed = true) :
    s.pointer ≠ .hl ∧ ∃ n, (a.data s m).map Access.address? = List.replicate (n + 1) (some (s.cell m)) := by
  cases a with
  | load dst src =>
    cases dst with
    | reg r =>
      cases src with
      | reg q => cases hu
      | cell => exact ⟨of_decide_eq_true hu, 0, rfl⟩
    | cell =>
      cases src with
      | reg q => exact ⟨of_decide_eq_true hu, 0, rfl⟩
      | cell => cases hu
  | loadImmediate dst =>
    cases dst with
    | reg r => cases hu
    | cell => exact ⟨of_decide_eq_true hu, 0, rfl⟩
  | combine op src =>
    cases src with
    | reg r => cases hu
    | cell => exact ⟨of_decide_eq_true hu, 0, rfl⟩
  | increment dst | decrement dst =>
    cases dst with
    | reg r => cases hu
    | cell => exact ⟨of_decide_eq_true hu, 1, rfl⟩
  | _ => cases hu

end Action

/-! ## Steps -/

namespace Cpu

variable {c : Cpu Flat} {i : Instruction}

theorem goesTo_of_outcome (h : (decode c.dialect c.regs.pc c.bus).1 = .ok i) {w : Word}
    (hw : ∃ taken, i.descriptor.form.taken? c.regs = some taken ∧
      (i.descriptor.action.perform (i.site c.regs.pc) ⟨c.regs.refresh i.page.width, c.bus⟩).1 = .branch taken w) :
    c.GoesTo i w := by
  obtain ⟨taken, ht, ho⟩ := hw
  refine ⟨taken, ht, ?_⟩
  rw [step_of_decode h (Prod.ext ho rfl)]
  exact i.target_branch c.regs.pc taken w

theorem applies_of_literal (h : (decode c.dialect c.regs.pc c.bus).1 = .ok i) {y : Word}
    (hm : i.descriptor.form.mnemonic ∈ Form.transfers) (hn : i.descriptor.form.mnemonic ∉ ["push", "pop", "ex"])
    (hl : i.descriptor.form.locate (c.regs.pc + BitVec.ofNat 16 i.page.width) ⟨c.regs.refresh i.page.width, c.bus⟩
      i.descriptor.form.src = some (.literal y)) : c.Applies i y := by
  obtain ⟨he, ho⟩ := Action.effect_eq_perform (i.site c.regs.pc) ⟨c.regs.refresh i.page.width, c.bus⟩
    (form_mem_forms (slot_of_decode h)) hm
  refine ⟨_, ?_, step_of_decode h (Prod.ext ho rfl)⟩
  rw [← Form.effect_of_literal hn hl]
  exact he

theorem data_of_decode (h : (decode c.dialect c.regs.pc c.bus).1 = .ok i) (ha : i.descriptor.action.isCallIf = false) :
    c.data i = i.descriptor.action.data (i.site c.regs.pc) ⟨c.regs.refresh i.page.width, c.bus⟩ := by
  have hslot := slot_of_decode h
  have hidle : ¬(i.descriptor.form.mnemonic = "call" ∧ i.descriptor.form.holds? c.regs.f = some false) := by
    intro hi
    have hc := (callIf_of_slot hslot).2 ⟨hi.1, Form.kind_of_holds? hi.2⟩
    rw [ha] at hc
    cases hc
  have hl := (fetchOrder_perm hslot hidle).length_eq
  rw [List.length_range] at hl
  rw [data, accesses_of_decode h, List.append_assoc]
  exact List.drop_left' ((List.length_map _).trans hl)

def shown (c : Cpu Flat) (i : Instruction) (name : String) (kind : OperandKind) : String :=
  Disassembly.shown (Disassembly.frame c.dialect (i.site c.regs.pc) i.descriptor.form) c.bus.memory name kind

section
variable (h : (decode c.dialect c.regs.pc c.bus).1 = .ok i) {spelling : Spelling}
  (hs : i.descriptor.spelling? c.dialect = some spelling) {kind : OperandKind} {name : String}
include h

theorem shows_immediate (hd : i.descriptor.dst = .immediate ∨ i.descriptor.src = .immediate) :
    c.Shows i .immediate name (c.shown i name .immediate) := by
  obtain ⟨hsrc, hm, hn⟩ := literal_of_slot (slot_of_decode h) hd (.inl rfl)
  refine ⟨_, _, isHex_byte _, rfl, applies_of_literal h hm hn ?_⟩
  simp only [Form.locate, Descriptor.form, hsrc]
  rfl

theorem shows_immediateWord (hd : i.descriptor.dst = .immediateExtended ∨ i.descriptor.src = .immediateExtended) :
    c.Shows i .immediateExtended name (c.shown i name .immediateExtended) := by
  have hslot := slot_of_decode h
  refine ⟨_, _, isHex_word _, rfl, ?_⟩
  by_cases hm : i.descriptor.form.mnemonic ∈ ["jp", "call"]
  · rw [if_pos hm]
    have hu := uses_of_slot hslot hd (.inr ⟨rfl, hm⟩)
    exact goesTo_of_outcome h (Action.branch_absolute (s := i.site c.regs.pc) (form_mem_forms hslot) hu ..)
  · rw [if_neg hm]
    obtain ⟨hsrc, hm, hn⟩ := literal_of_slot hslot hd (.inr ⟨rfl, hm⟩)
    refine applies_of_literal h hm hn ?_
    simp only [Form.locate, Descriptor.form, hsrc]
    rfl

include hs

theorem shows_register
    (hk : i.descriptor.dst = .register ∧ spelling.dst = name ∨ i.descriptor.src = .register ∧ spelling.src = name) :
    c.Shows i .register name name := by
  have hslot := slot_of_decode h
  refine ⟨rfl, ?_, ?_⟩
  · intro hm
    obtain ⟨v, ha, hsrc, hv⟩ := vector_of_slot hslot hs hm
    have hp : (i.descriptor.action.perform (i.site c.regs.pc) ⟨c.regs.refresh i.page.width, c.bus⟩).1 =
        .jump (v.setWidth 16) := by
      rw [ha]
      rfl
    rcases hk with ⟨-, hn⟩ | ⟨he, -⟩
    · refine ⟨v, hn ▸ hv, ?_⟩
      rw [step_of_decode h (Prod.ext hp rfl)]
      rfl
    · cases hsrc.symm.trans he
  · intro hm
    obtain ⟨mode, ha, hsrc, hv⟩ := mode_of_slot hslot hs hm
    have him : c.step.2.regs.im = mode := by
      rw [step_of_decode h rfl, ha]
      rfl
    rcases hk with ⟨-, hn⟩ | ⟨he, -⟩
    · rw [him]
      exact hn.symm.trans hv
    · cases hsrc.symm.trans he

theorem shows_indexed
    (hk : i.descriptor.dst = .indexed ∧ spelling.dst = name ∨ i.descriptor.src = .indexed ∧ spelling.src = name) :
    c.Shows i .indexed name (c.shown i name .indexed) := by
  have hslot := slot_of_decode h
  have hu := uses_of_slot hslot (hk.imp And.left And.left) (.inl (by decide))
  have hn : name = i.page.pointer.name := by
    obtain ⟨hdst, hsrc⟩ := index_of_slot hslot hs
    rcases hk with ⟨he, hn⟩ | ⟨he, hn⟩
    · exact hn.symm.trans (hdst he)
    · exact hn.symm.trans (hsrc he)
  have hname : ¬name.isEmpty = true := by
    rw [hn]
    cases i.page.pointer <;> decide
  obtain ⟨hx, n, hmap⟩ := Action.data_indexed (s := i.site c.regs.pc) ⟨c.regs.refresh i.page.width, c.bus⟩ hu
  rw [← data_of_decode h (Action.isCallIf_of_uses (by decide) hu), Site.cell_of_index hx, Word.displace_eq] at hmap
  refine ⟨_, magnitude (c.bus.memory.get (i.site c.regs.pc).operands),
    (c.bus.memory.get (i.site c.regs.pc).operands).msb, c.regs.pointer i.page.pointer, isHex_byte _, if_neg hname,
    ?_, ?_, ?_⟩
  · rw [hn]
    exact Registers.named?_pairName c.regs i.page.pointer .hl
  · intro he
    rw [he] at hmap
    cases hmap
  · intro a ha
    have hm := List.mem_map_of_mem (f := Access.address?) ha
    rw [hmap] at hm
    exact List.eq_of_mem_replicate hm

/-- Every operand shows what a step uses. -/
theorem shows_operand
    (hk : i.descriptor.dst = kind ∧ spelling.dst = name ∨ i.descriptor.src = kind ∧ spelling.src = name) :
    c.Shows i kind name (c.shown i name kind) := by
  have hslot := slot_of_decode h
  have hd : i.descriptor.dst = kind ∨ i.descriptor.src = kind := hk.imp And.left And.left
  cases kind with
  | none | condition | registerIndirect => rfl
  | register => exact shows_register h hs hk
  | immediate => exact shows_immediate h hd
  | immediateExtended => exact shows_immediateWord h hd
  | indexed => exact shows_indexed h hs hk
  | displacement =>
    have hu := uses_of_slot hslot hd (.inl (by decide))
    exact ⟨_, _, isHex_word _, rfl,
      goesTo_of_outcome h (Action.branch_relative (s := i.site c.regs.pc) (form_mem_forms hslot) hu ..)⟩
  | indirect =>
    have hu := uses_of_slot hslot hd (.inl (by decide))
    refine ⟨_, _, isHex_byte _, rfl, ?_⟩
    rw [data_of_decode h (Action.isCallIf_of_uses (by decide) hu)]
    exact Action.data_port (s := i.site c.regs.pc) _ hu
  | extended =>
    have hu := uses_of_slot hslot hd (.inl (by decide))
    refine ⟨_, _, isHex_word _, rfl, ?_⟩
    rw [data_of_decode h (Action.isCallIf_of_uses (by decide) hu)]
    exact Action.data_absolute (s := i.site c.regs.pc) _ hu

end

/-- The disassembly, the lookup and the processor agree on what stands at the program counter. -/
theorem disassembly_agrees (c : Cpu Flat) :
    let shown := (Disassembly.read c.dialect c.regs.pc c.bus).1
    let found := (lookup c.dialect c.regs.pc c.bus).1
    ((∃ opcode address, c.step.1 = some (.invalid opcode address)) ↔ shown = ⟨"INVALID", "", "", 1⟩) ∧
      (shown = ⟨"INVALID", "", "", 1⟩ ↔ found = none) ∧
      ∀ d, found = some d → ∃ i spelling, (decode c.dialect c.regs.pc c.bus).1 = .ok i ∧ i.descriptor = d ∧
        d.spelling? c.dialect = some spelling ∧ shown.mnemonic = spelling.mnemonic ∧ shown.length = d.length ∧
        c.Shows i d.dst spelling.dst shown.dst ∧ c.Shows i d.src spelling.src shown.src := by
  intro shown found
  have hfound : found = (decode c.dialect c.regs.pc c.bus).1.toOption.map Instruction.descriptor := rfl
  rcases c.step_cases with ⟨opcode, h, hstep⟩ | ⟨i, o, m, h, -, hstep⟩
  · have hshown : shown = ⟨"INVALID", "", "", 1⟩ := Disassembly.read_of_decode_error h
    have hnone : found = none := by
      rw [hfound, h]
      rfl
    refine ⟨⟨fun _ => hshown, fun _ => ⟨opcode, c.regs.pc, ?_⟩⟩, ⟨fun _ => hnone, fun _ => hshown⟩, ?_⟩
    · rw [hstep]
    · intro d hd
      cases hnone.symm.trans hd
  · obtain ⟨spelling, hs⟩ := spelling_of_decode h
    have hshown := Disassembly.read_of_decode h hs
    have hne : shown ≠ ⟨"INVALID", "", "", 1⟩ := by
      intro he
      exact mnemonic_ne_invalid (slot_of_decode h) hs (congrArg Disassembly.mnemonic (hshown.symm.trans he))
    have hsome : found = some i.descriptor := by
      rw [hfound, h]
      rfl
    refine ⟨⟨?_, fun he => absurd he hne⟩, ⟨fun he => absurd he hne, ?_⟩, ?_⟩
    · rintro ⟨opcode, address, hi⟩
      rw [hstep] at hi
      cases (Outcome.stop_eq_some hi).2
    · intro he
      cases hsome.symm.trans he
    · intro d hd
      cases hsome.symm.trans hd
      refine ⟨i, spelling, h, rfl, hs, congrArg Disassembly.mnemonic hshown, congrArg Disassembly.length hshown, ?_, ?_⟩
      · rw [show shown.dst = _ from congrArg Disassembly.dst hshown]
        exact shows_operand h hs (.inl ⟨rfl, rfl⟩)
      · rw [show shown.src = _ from congrArg Disassembly.src hshown]
        exact shows_operand h hs (.inr ⟨rfl, rfl⟩)

end Cpu

end Micro80
