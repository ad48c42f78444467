/-
  Micro80.Alu.Decimal — the decimal adjustment: bytes that hold two decimal digits are
  added and subtracted in binary, and the result is put right from the flags.
-/

import Micro80.State.Flags

namespace Micro80.Alu

/-- The decimal carry that is due: a binary one, or a value past 99 in decimal digits. -/
def decimalCarry (f : Flags) (a : Byte) : Bool := f.c || 0x99 < a.toNat

def decimalCorrection (f : Flags) (a : Byte) : Byte :=
  (if f.h || 9 < a.toNat % 16 then 0x06 else 0) ||| (if decimalCarry f a then 0x60 else 0)

/-- The accumulator after an addition or, with the subtract flag set, a subtraction of
    decimal digits, corrected to decimal digits. -/
def daa (f : Flags) (a : Byte) : Byte × Flags :=
  let r := if f.n then a - decimalCorrection f a else a + decimalCorrection f a
  (r, { f.judgeParity r with
    h := if f.n then f.h && a.toNat % 16 < 6 else 9 < a.toNat % 16
    c := decimalCarry f a })

/-! ## Numbers -/

theorem toNat_decimalCorrection (f : Flags) (a : Byte) :
    (decimalCorrection f a).toNat =
      (if f.h || 9 < a.toNat % 16 then 6 else 0) + if decimalCarry f a then 96 else 0 := by
  unfold decimalCorrection
  split <;> split <;> rfl

/-- The adjustment, where the digits that it corrects are known. -/
theorem toNat_daa {f : Flags} {a : Byte} {low high : Prop} [Decidable low] [Decidable high]
    (hlow : (f.h || decide (9 < a.toNat % 16)) = decide low) (hhigh : decimalCarry f a = decide high) :
    (daa f a).1.toNat = (if f.n then a.toNat + 256 - ((if low then 6 else 0) + if high then 96 else 0)
        else a.toNat + ((if low then 6 else 0) + if high then 96 else 0)) % 256 ∧
      (daa f a).2.c.toNat = if high then 1 else 0 := by
  have hcorrection := toNat_decimalCorrection f a
  rw [hlow, hhigh] at hcorrection
  simp only [decide_eq_true_eq] at hcorrection
  refine ⟨?_, (congrArg Bool.toNat hhigh).trans (Bool.cond_decide ..)⟩
  rw [daa, ← hcorrection]
  have hlt := (decimalCorrection f a).isLt
  cases f.n with
  | true =>
    simp only [if_true, BitVec.toNat_sub]
    omega
  | false => exact BitVec.toNat_add ..

end Micro80.Alu
