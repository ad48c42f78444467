/-
  Micro80.Proofs.Digits — the digits in the text of an operand. They are written in full
  and with their sign, so that they determine the number (`byte_inj`, `word_inj`,
  `signed_inj`); what stands around them hangs on the kind and the name of the operand
  alone (`OperandKind.pattern`, `prints_shown`). They are as many for any operand bytes
  (`length_digits`), and equal just when these are (`digits_eq_iff`).
-/

import Micro80.Proofs.Pattern
import Micro80.Proofs.Text

namespace Micro80

open Pattern (Prints)
open Text (Hex.byte Hex.word)

/-! ## Numbers -/

theorem append_inj {s t s' t' : String} (h : s ++ t = s' ++ t') (hl : s.length = s'.length) : s = s' ∧ t = t' := by
  have hlists := congrArg String.toList h
  rw [String.toList_append, String.toList_append] at hlists
  rw [← String.length_toList, ← String.length_toList] at hl
  obtain ⟨hs, ht⟩ := List.append_inj hlists hl
  exact ⟨String.toList_inj.mp hs, String.toList_inj.mp ht⟩

namespace Text.Hex

theorem byte_inj {b c : Byte} (h : byte b = byte c) : b = c := by
  have hb := (isHex_byte b).2
  rw [h, (isHex_byte c).2] at hb
  exact BitVec.eq_of_toNat_eq (Option.some.inj hb).symm

theorem word_inj {v w : Word} (h : word v = word w) : v = w := by
  have hv := (isHex_word v).2
  rw [h, (isHex_word w).2] at hv
  exact BitVec.eq_of_toNat_eq (Option.some.inj hv).symm

theorem isPlain_byte (b : Byte) : IsPlain (byte b) := by
  have ascii : ∀ n, (digit n).val.toNat ≤ 127 := by decide
  apply isPlain_ofList
  simp only [byteDigits, List.forall_mem_cons]
  exact ⟨ascii _, ascii _, List.forall_mem_nil _⟩

theorem isPlain_word (w : Word) : IsPlain (word w) := by
  rw [word, wordDigits, String.ofList_append]
  exact (isPlain_byte w.high).append (isPlain_byte w.low)

end Text.Hex

namespace Disassembly

theorem length_sign (negative : Bool) : (if negative then "-$" else "+$").length = 2 := by
  cases negative <;> rfl

theorem length_signed (d : Byte) : (signed d).length = 4 := by
  rw [signed, String.length_append, length_sign, (isHex_byte _).1]

theorem isPlain_signed (d : Byte) : IsPlain (signed d) := by
  refine .append ?_ (Text.Hex.isPlain_byte _)
  cases d.msb <;> exact rfl

/-- The sign tells which half of the bytes it is, and the magnitude which of them. -/
theorem signed_inj {d e : Byte} (h : signed d = signed e) : d = e := by
  obtain ⟨hsign, hdigits⟩ := append_inj h ((length_sign d.msb).trans (length_sign e.msb).symm)
  have hmagnitude := Text.Hex.byte_inj hdigits
  cases hd : d.msb <;> cases he : e.msb <;> rw [hd, he] at hsign hmagnitude
  · exact hmagnitude
  · exact absurd hsign (by simp)
  · exact absurd hsign (by simp)
  · exact BitVec.neg_inj.mp hmagnitude

end Disassembly

/-! ## Operands -/

def memoryPattern (name : String) : Dialect → Pattern
  | .z80 => Pattern.text "(" ++ Pattern.text name ++ Pattern.text ")"
  | .i8080 => Pattern.text name

/-- How an operand's text looks: the sign and the digits of its number are holes. -/
def OperandKind.pattern (dialect : Dialect) (name : String) : OperandKind → Pattern
  | .none => []
  | .register | .condition => Pattern.text name
  | .registerIndirect => if name.isEmpty then [] else memoryPattern name dialect
  | .immediate => Pattern.text "$" ++ Pattern.holes 2
  | .immediateExtended | .displacement => Pattern.text "$" ++ Pattern.holes 4
  | .indirect => Pattern.text "($" ++ Pattern.holes 2 ++ Pattern.text ")"
  | .extended => Pattern.text "($" ++ Pattern.holes 4 ++ Pattern.text ")"
  | .indexed =>
    if name.isEmpty then [] else Pattern.text "(" ++ Pattern.text name ++ Pattern.holes 4 ++ Pattern.text ")"

def OperandKind.offsets (displaced : Bool) : OperandKind → List Nat
  | .none | .register | .condition | .registerIndirect => []
  | .immediate => [if displaced then 1 else 0]
  | .immediateExtended | .extended => [0, 1]
  | .indirect | .displacement | .indexed => [0]

namespace Disassembly

def digits (f : Frame) (m : Memory) (name : String) : OperandKind → String
  | .none | .register | .condition | .registerIndirect => ""
  | .immediate => Hex.byte (m.get (f.operands + if f.displaced then 1 else 0))
  | .immediateExtended | .extended => Hex.word (m.getWord f.operands)
  | .indirect => Hex.byte (m.get f.operands)
  | .displacement => Hex.word (f.next.displace (m.get f.operands))
  | .indexed => if name.isEmpty then "" else signed (m.get f.operands)

theorem prints_byte (b : Byte) : Prints (Pattern.holes 2) (Hex.byte b) (Hex.byte b) :=
  .holes (Text.Hex.isPlain_byte b) (isHex_byte b).1

theorem prints_word (w : Word) : Prints (Pattern.holes 4) (Hex.word w) (Hex.word w) :=
  .holes (Text.Hex.isPlain_word w) (isHex_word w).1

theorem prints_signed (d : Byte) : Prints (Pattern.holes 4) (signed d) (signed d) :=
  .holes (isPlain_signed d) (length_signed d)

theorem prints_shown (f : Frame) (m : Memory) {name : String} (hn : IsPlain name) (kind : OperandKind) :
    Prints (kind.pattern f.dialect name) (digits f m name kind) (shown f m name kind) := by
  have dollar : IsPlain "$" := rfl
  have left : IsPlain "(" := rfl
  have leftDollar : IsPlain "($" := rfl
  have right : IsPlain ")" := rfl
  cases kind with
  | none => exact ⟨.nil, rfl⟩
  | register | condition => exact .fixed hn
  | registerIndirect =>
    by_cases hempty : name.isEmpty = true
    · rw [OperandKind.pattern, shown, if_pos hempty, if_pos hempty]
      exact ⟨.nil, rfl⟩
    · rw [OperandKind.pattern, shown, if_neg hempty, if_neg hempty]
      cases f.dialect with
      | z80 => exact (Prints.behind (.fixed hn) left).before right
      | i8080 => exact .fixed hn
  | immediate => exact (prints_byte _).behind dollar
  | immediateExtended | displacement => exact (prints_word _).behind dollar
  | indirect => exact ((prints_byte _).behind leftDollar).before right
  | extended => exact ((prints_word _).behind leftDollar).before right
  | indexed =>
    by_cases hempty : name.isEmpty = true
    · rw [OperandKind.pattern, shown, digits, if_pos hempty, if_pos hempty, if_pos hempty]
      exact ⟨.nil, rfl⟩
    · rw [OperandKind.pattern, shown, digits, if_neg hempty, if_neg hempty, if_neg hempty, ← Pattern.text_append]
      exact ((prints_signed _).behind (left.append hn)).before right

/-- The digits of an operand are as many whatever its bytes are. -/
theorem length_digits (f : Frame) (m m' : Memory) (name : String) (kind : OperandKind) :
    (digits f m name kind).length = (digits f m' name kind).length := by
  cases kind with
  | none | register | condition | registerIndirect => rfl
  | immediate | indirect => exact (isHex_byte _).1.trans (isHex_byte _).1.symm
  | immediateExtended | extended | displacement => exact (isHex_word _).1.trans (isHex_word _).1.symm
  | indexed =>
    by_cases hempty : name.isEmpty = true
    · rw [digits, digits, if_pos hempty, if_pos hempty]
    · rw [digits, digits, if_neg hempty, if_neg hempty, length_signed, length_signed]

end Disassembly

theorem Word.displace_inj {w : Word} {d e : Byte} (h : w.displace d = w.displace e) : d = e := by
  have truncated : ∀ v : Byte, (v.signExtend 16).setWidth 8 = v := by decide +kernel
  have hx := (BitVec.add_right_inj w).mp h
  rw [← truncated d, hx, truncated e]

/-- The digits of an operand are its bytes. -/
theorem Disassembly.digits_eq_iff {f : Frame} {m m' : Memory} {name : String} {kind : OperandKind}
    (hn : kind = .indexed → name.isEmpty = false) :
    digits f m name kind = digits f m' name kind ↔
      ∀ k ∈ kind.offsets f.displaced,
        m.get (f.operands + BitVec.ofNat 16 k) = m'.get (f.operands + BitVec.ofNat 16 k) := by
  have hzero := f.operands.add_ofNat_zero
  cases kind with
  | none | register | condition | registerIndirect =>
    simp only [digits, OperandKind.offsets, List.not_mem_nil, false_implies, implies_true]
  | immediate =>
    have hone : (f.operands + if f.displaced then 1 else 0) =
        f.operands + BitVec.ofNat 16 (if f.displaced then 1 else 0) := by cases f.displaced <;> rfl
    simp only [digits, OperandKind.offsets, List.forall_mem_singleton, hone]
    exact ⟨Text.Hex.byte_inj, congrArg Hex.byte⟩
  | immediateExtended | extended =>
    simp only [digits, OperandKind.offsets, List.forall_mem_cons, List.not_mem_nil, false_implies, implies_true,
      and_true, hzero]
    exact Iff.trans ⟨Text.Hex.word_inj, congrArg Hex.word⟩ Memory.getWord_inj
  | indirect =>
    simp only [digits, OperandKind.offsets, List.forall_mem_singleton, hzero]
    exact ⟨Text.Hex.byte_inj, congrArg Hex.byte⟩
  | displacement =>
    simp only [digits, OperandKind.offsets, List.forall_mem_singleton, hzero]
    exact ⟨fun h => Word.displace_inj (Text.Hex.word_inj h), congrArg fun d => Hex.word (f.next.displace d)⟩
  | indexed =>
    simp only [digits, OperandKind.offsets, List.forall_mem_singleton, hzero, hn rfl, Bool.false_eq_true, if_false]
    exact ⟨signed_inj, congrArg signed⟩

end Micro80
