/-
  Micro80.Proofs.Text — the text of an instruction on flat memory, which is a function of
  the description and the operand bytes (`operandText_flat`, `read_of_decode`). Numbers
  are written out in full, so that what is written can be read again (`isHex_byte`,
  `isHex_word`); a displacement is written as its sign and its magnitude, and it is added
  or taken off by that (`displace_eq`).
-/

import Micro80.Proofs.Decoding
import Micro80.Proofs.Operands
import Micro80.Text.Disassembly

namespace Micro80

open Bus (Flat)
open Text (Hex.byte Hex.word)

/-! ## Numbers -/

def IsHex {n : Nat} (digits : String) (x : BitVec n) : Prop :=
  digits.length = n / 4 ∧ Text.Hex.number? digits.toList = some x.toNat

theorem isHex_byte (b : Byte) : IsHex (Hex.byte b) b := by
  refine ⟨String.length_ofList, ?_⟩
  rw [Hex.byte, String.toList_ofList]
  exact Text.Hex.number?_byteDigits b

theorem isHex_word (w : Word) : IsHex (Hex.word w) w := by
  refine ⟨String.length_ofList, ?_⟩
  rw [Hex.word, String.toList_ofList]
  exact Text.Hex.number?_wordDigits w

/-- The magnitude of a displacement, as it is printed. -/
def magnitude (d : Byte) : Byte := if d.msb then -d else d

/-- A displacement is added or taken off by its magnitude. -/
theorem Word.displace_eq (w : Word) (d : Byte) :
    w.displace d = if d.msb then w - (magnitude d).setWidth 16 else w + (magnitude d).setWidth 16 := by
  have extended : ∀ v : Byte,
      v.signExtend 16 = if v.msb then -(magnitude v).setWidth 16 else (magnitude v).setWidth 16 := by
    decide +kernel
  rw [displace, extended]
  cases d.msb with
  | false => rfl
  | true => exact (BitVec.sub_eq_add_neg ..).symm

/-! ## Spellings -/

namespace Descriptor

def kinds (d : Descriptor) : List OperandKind := [d.dst, d.src]

def spellings (d : Descriptor) : List Spelling := d.zilog :: d.intel.toList

theorem mem_spellings {d : Descriptor} {dialect : Dialect} {spelling : Spelling}
    (h : d.spelling? dialect = some spelling) : spelling ∈ d.spellings := by
  cases dialect with
  | z80 => cases h; exact List.mem_cons_self ..
  | i8080 => exact List.mem_cons_of_mem _ (Option.mem_toList.mpr h)

theorem mem_kinds {d : Descriptor} {k : OperandKind} (h : d.dst = k ∨ d.src = k) : k ∈ d.kinds := by
  rcases h with rfl | rfl
  · exact List.mem_cons_self ..
  · exact List.mem_cons_of_mem _ (List.mem_cons_self ..)

end Descriptor

/-- No instruction is called what a byte without one is called. -/
theorem mnemonic_ne_invalid {p : Page} {opcode : Byte} {d : Descriptor} (h : p.slot opcode = .instruction d)
    {dialect : Dialect} {spelling : Spelling} (hs : d.spelling? dialect = some spelling) :
    spelling.mnemonic ≠ Disassembly.invalid.mnemonic := by
  have checked : ∀ o, (p.slot o).all (fun d => ∀ s ∈ d.spellings, s.mnemonic ≠ Disassembly.invalid.mnemonic) = true := by
    cases p <;> decide +kernel
  exact of_decide_eq_true (Slot.of_all (checked opcode) h) spelling (Descriptor.mem_spellings hs)

/-! ## Text -/

namespace Disassembly

def shown (f : Frame) (m : Memory) (name : String) : OperandKind → String
  | .none => ""
  | .register | .condition => name
  | .registerIndirect => if name.isEmpty then "" else memoryName f.dialect name
  | .immediate => "$" ++ Hex.byte (m.get (f.operands + if f.displaced then 1 else 0))
  | .immediateExtended => "$" ++ Hex.word (m.getWord f.operands)
  | .indirect => "($" ++ Hex.byte (m.get f.operands) ++ ")"
  | .extended => "($" ++ Hex.word (m.getWord f.operands) ++ ")"
  | .displacement => "$" ++ Hex.word (f.next.displace (m.get f.operands))
  | .indexed => if name.isEmpty then "" else "(" ++ name ++ signed (m.get f.operands) ++ ")"

theorem operandByte_zero (f : Frame) (b : Flat) : operandByte f 0 b = (b.memory.get f.operands, b) :=
  congrArg (fun a => (b.memory.get a, b)) (BitVec.add_zero f.operands)

theorem operandWord_flat (f : Frame) (b : Flat) : operandWord f b = (b.memory.getWord f.operands, b) :=
  congrArg (fun a => (Word.ofBytes (b.memory.get (f.operands + 1)) (b.memory.get a), b)) (BitVec.add_zero f.operands)

theorem operandText_flat (f : Frame) (kind : OperandKind) (name : String) (b : Flat) :
    operandText f kind name b = (shown f b.memory name kind, b) := by
  cases kind with
  | none | immediate => rfl
  | register | condition =>
    by_cases hn : name.isEmpty = true
    · rw [String.isEmpty_iff.mp hn]
      rfl
    · exact congrFun (if_neg hn) b
  | registerIndirect =>
    by_cases hn : name.isEmpty = true
    · rw [shown, if_pos hn]
      exact congrFun (if_pos hn) b
    · rw [shown, if_neg hn]
      exact congrFun (if_neg hn) b
  | indexed =>
    by_cases hn : name.isEmpty = true
    · rw [shown, if_pos hn]
      exact congrFun (if_pos hn) b
    · have h : operandText f .indexed name b =
          ("(" ++ name ++ signed (operandByte f 0 b).1 ++ ")", (operandByte f 0 b).2) := congrFun (if_neg hn) b
      rw [shown, if_neg hn, h, operandByte_zero]
  | immediateExtended =>
    have h : operandText f .immediateExtended name b = ("$" ++ Hex.word (operandWord f b).1, (operandWord f b).2) := rfl
    rw [h, operandWord_flat, shown]
  | extended =>
    have h : operandText f .extended name b = ("($" ++ Hex.word (operandWord f b).1 ++ ")", (operandWord f b).2) := rfl
    rw [h, operandWord_flat, shown]
  | indirect =>
    have h : operandText f .indirect name b = ("($" ++ Hex.byte (operandByte f 0 b).1 ++ ")", (operandByte f 0 b).2) :=
      rfl
    rw [h, operandByte_zero, shown]
  | displacement =>
    have h : operandText f .displacement name b =
        ("$" ++ Hex.word (f.next.displace (operandByte f 0 b).1), (operandByte f 0 b).2) := rfl
    rw [h, operandByte_zero, shown]

def frame (dialect : Dialect) (s : Site) (f : Form) : Frame := ⟨dialect, s.operands, s.next, f.isDisplaced⟩

/-- An instruction is its mnemonic, then the destination, then the source. -/
theorem ofInstruction_of_spelling {β : Type} [Bus β] {d : Dialect} {a : Word} {i : Instruction} {spelling : Spelling}
    (hs : i.descriptor.spelling? d = some spelling) :
    ofInstruction d a i = (do
      let dst ← operandText (frame d (i.site a) i.descriptor.form) i.descriptor.dst spelling.dst
      let src ← operandText (frame d (i.site a) i.descriptor.form) i.descriptor.src spelling.src
      return ⟨spelling.mnemonic, dst, src, i.descriptor.length⟩ : StateM β Disassembly) := by
  unfold ofInstruction
  simp only [hs]
  rfl

theorem ofInstruction_flat {d : Dialect} {a : Word} {i : Instruction} {spelling : Spelling}
    (hs : i.descriptor.spelling? d = some spelling) (b : Flat) :
    ofInstruction d a i b =
      (⟨spelling.mnemonic,
        shown (frame d (i.site a) i.descriptor.form) b.memory spelling.dst i.descriptor.dst,
        shown (frame d (i.site a) i.descriptor.form) b.memory spelling.src i.descriptor.src,
        i.descriptor.length⟩, b) := by
  rw [ofInstruction_of_spelling hs]
  simp only [bind, StateT.bind, operandText_flat]
  rfl

theorem read_of_decode {d : Dialect} {a : Word} {b : Flat} {i : Instruction} {spelling : Spelling}
    (h : (decode d a b).1 = .ok i) (hs : i.descriptor.spelling? d = some spelling) :
    (read d a b).1 =
      ⟨spelling.mnemonic,
        shown (frame d (i.site a) i.descriptor.form) b.memory spelling.dst i.descriptor.dst,
        shown (frame d (i.site a) i.descriptor.form) b.memory spelling.src i.descriptor.src,
        i.descriptor.length⟩ := by
  have hr : read d a b = ofInstruction d a i b := by
    unfold read
    simp only [bind, StateT.bind, h, decode_snd]
  rw [hr, ofInstruction_flat hs]

@[simp] theorem read_snd (d : Dialect) (a : Word) (b : Flat) : (read d a b).2 = b := by
  have hi : ∀ i, (ofInstruction d a i b).2 = b := by
    intro i
    cases hs : i.descriptor.spelling? d with
    | none =>
      unfold ofInstruction
      rw [hs]
      rfl
    | some spelling => rw [ofInstruction_flat hs]
  unfold read
  simp only [bind, StateT.bind, decode_snd]
  cases (decode d a b).1 with
  | error opcode => rfl
  | ok i => exact hi i

theorem read_of_decode_error {d : Dialect} {a : Word} {b : Flat} {opcode : Byte} (h : (decode d a b).1 = .error opcode) :
    (read d a b).1 = invalid := by
  unfold read
  simp only [bind, StateT.bind, h]
  rfl

end Disassembly

end Micro80
