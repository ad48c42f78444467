/-
  Micro80.Proofs.Decimal — sums and differences of decimal numbers, two digits in a byte. An
  addition or a subtraction in binary is followed by the decimal adjustment, which sees the
  result and the flags alone (`adjusted`). The half carry or a low digit past 9 tells it that
  the low digits came to more than 9, or that the difference borrowed; the carry or a byte
  past 99 tells it the same of both digits.

  Proved, for every number of bytes and all flags:
  - `number_adjusted`: adding with carry from byte to byte, each adjusted, leaves the decimal
    digits of the sum, and the decimal carry; subtracting with carry, those of the
    difference, and the decimal borrow.
-/

import Micro80.Alu.Operation
import Micro80.Proofs.Chain

namespace Micro80

/-! ## Packed digits -/

/-- A byte that holds two decimal digits stands for a number below 100. -/
def packed : Radix Byte where
  base := 100
  value b := 10 * (b.toNat / 16) + b.toNat % 16
  IsDigit b := b.toNat / 16 ≤ 9 ∧ b.toNat % 16 ≤ 9
  one_lt_base := by decide
  value_lt b h := by omega

instance (b : Byte) : Decidable (packed.IsDigit b) := inferInstanceAs (Decidable (_ ∧ _))

/-- An operation on two bytes, and the decimal adjustment of what it leaves. -/
def AluOp.adjusted (op : AluOp) (f : Flags) (p : Byte × Byte) : Byte × Flags :=
  let (a, f) := op.apply f p.1 p.2
  Alu.daa f a

/-! ## One byte -/

section
variable (f : Flags) {x y : Byte}

/-- The sum digit by digit, as on paper. -/
theorem adjusted_adc (hx : packed.IsDigit x) (hy : packed.IsDigit y) :
    let r := AluOp.adc.adjusted f (x, y)
    let low := x.toNat % 16 + y.toNat % 16 + f.c.toNat
    let high := x.toNat / 16 + y.toNat / 16 + low / 10
    r.1.toNat = 16 * (high % 10) + low % 10 ∧ r.2.c.toNat = high / 10 := by
  intro r low high
  obtain ⟨hxh, hxl⟩ : x.toNat / 16 ≤ 9 ∧ x.toNat % 16 ≤ 9 := hx
  obtain ⟨hyh, hyl⟩ : y.toNat / 16 ≤ 9 ∧ y.toNat % 16 ≤ 9 := hy
  have hcarry : f.c.toNat ≤ 1 := Bool.toNat_le _
  have ha := Alu.toNat_add f x y f.c
  have hlow : ((Alu.add f x y f.c).2.h || decide (9 < (Alu.add f x y f.c).1.toNat % 16)) = decide (9 < low) := by
    rw [ha, show (Alu.add f x y f.c).2.h = decide (15 < low) from rfl, ← Bool.decide_or, decide_eq_decide]
    omega
  have hhigh : Alu.decimalCarry (Alu.add f x y f.c).2 (Alu.add f x y f.c).1 = decide (9 < high) := by
    rw [Alu.decimalCarry, ha, show (Alu.add f x y f.c).2.c = decide (255 < x.toNat + y.toNat + f.c.toNat) from rfl,
      ← Bool.decide_or, decide_eq_decide]
    omega
  obtain ⟨hvalue, hc⟩ := Alu.toNat_daa hlow hhigh
  have hvalue : r.1.toNat = ((x.toNat + y.toNat + f.c.toNat) % 256 +
      ((if 9 < low then 6 else 0) + if 9 < high then 96 else 0)) % 256 := by rw [← ha]; exact hvalue
  have hc : r.2.c.toNat = if 9 < high then 1 else 0 := hc
  rw [hvalue, hc]
  constructor
  · split <;> split <;> omega
  · split <;> omega

/-- The difference digit by digit: what is below zero has borrowed ten. -/
theorem adjusted_sbc (hx : packed.IsDigit x) (hy : packed.IsDigit y) :
    let r := AluOp.sbc.adjusted f (x, y)
    let low : Int := x.toNat % 16 - y.toNat % 16 - f.c.toNat
    let high : Int := x.toNat / 16 - y.toNat / 16 + low / 10
    r.1.toNat = 16 * (high % 10) + low % 10 ∧ r.2.c.toNat = -(high / 10) := by
  intro r low high
  obtain ⟨hxh, hxl⟩ : x.toNat / 16 ≤ 9 ∧ x.toNat % 16 ≤ 9 := hx
  obtain ⟨hyh, hyl⟩ : y.toNat / 16 ≤ 9 ∧ y.toNat % 16 ≤ 9 := hy
  have hborrow : f.c.toNat ≤ 1 := Bool.toNat_le _
  have ha := Alu.toNat_sub f x y f.c
  have hlow : ((Alu.sub f x y f.c).2.h || decide (9 < (Alu.sub f x y f.c).1.toNat % 16)) = decide (low < 0) := by
    rw [ha, show (Alu.sub f x y f.c).2.h = decide (x.toNat % 16 < y.toNat % 16 + f.c.toNat) from rfl,
      ← Bool.decide_or, decide_eq_decide]
    omega
  have hten : low / 10 = if low < 0 then -1 else 0 := by split <;> omega
  have hhigh : Alu.decimalCarry (Alu.sub f x y f.c).2 (Alu.sub f x y f.c).1 = decide (high < 0) := by
    rw [Alu.decimalCarry, ha, show (Alu.sub f x y f.c).2.c = decide (x.toNat < y.toNat + f.c.toNat) from rfl,
      ← Bool.decide_or, decide_eq_decide]
    split at hten <;> omega
  obtain ⟨hvalue, hc⟩ := Alu.toNat_daa hlow hhigh
  have hvalue : r.1.toNat = ((x.toNat + 256 - (y.toNat + f.c.toNat)) % 256 + 256 -
      ((if low < 0 then 6 else 0) + if high < 0 then 96 else 0)) % 256 := by rw [← ha]; exact hvalue
  have hc : r.2.c.toNat = if high < 0 then 1 else 0 := hc
  rw [hvalue, hc]
  constructor
  · split <;> split <;> omega
  · split <;> omega

end

theorem adds_adjusted : packed.Adds AluOp.adc.adjusted where
  isDigit f x y hx hy := by
    have hvalue := (adjusted_adc f hx hy).1
    show _ / 16 ≤ 9 ∧ _ % 16 ≤ 9
    omega
  value f x y hx hy := by
    obtain ⟨hvalue, hc⟩ := adjusted_adc f hx hy
    simp only [packed]
    omega

theorem subtracts_adjusted : packed.Subtracts AluOp.sbc.adjusted where
  isDigit f x y hx hy := by
    have hvalue := (adjusted_sbc f hx hy).1
    show _ / 16 ≤ 9 ∧ _ % 16 ≤ 9
    omega
  value f x y hx hy := by
    obtain ⟨hvalue, hc⟩ := adjusted_sbc f hx hy
    simp only [packed]
    omega

/-! ## Any number of bytes -/

/-- Codes 1 and 3 are the addition and the subtraction with carry. -/
theorem number_adjusted {xs ys : List Byte} (hp : packed.Pairs xs ys) (f : Flags) :
    let n := xs.length
    let sum := chain (AluOp.ofCode 1).adjusted f (xs.zip ys)
    let difference := chain (AluOp.ofCode 3).adjusted f (xs.zip ys)
    (sum.1.length = n ∧ (∀ z ∈ sum.1, packed.IsDigit z) ∧
      packed.number sum.1 = (packed.number xs + packed.number ys + f.c.toNat) % 100 ^ n ∧
      (sum.2.c = true ↔ 100 ^ n ≤ packed.number xs + packed.number ys + f.c.toNat)) ∧
    difference.1.length = n ∧ (∀ z ∈ difference.1, packed.IsDigit z) ∧
      (packed.number difference.1 : Int) = (packed.number xs - packed.number ys - f.c.toNat) % 100 ^ n ∧
      (difference.2.c = true ↔ packed.number xs < packed.number ys + f.c.toNat) := by
  intro n sum difference
  refine ⟨adds_adjusted.number_chain hp f, ?_⟩
  obtain ⟨hlength, hdigits, hnumber, hborrow⟩ := subtracts_adjusted.number_chain hp f
  rw [Nat.cast_pow] at hnumber
  exact ⟨hlength, hdigits, hnumber, hborrow⟩

/-- 9945 and 9955 with a carry: the sum is past four digits, and the difference below zero. -/
theorem number_adjusted_wraps :
    let xs : List Byte := [0x45, 0x99]
    let ys : List Byte := [0x55, 0x99]
    let f : Flags := { c := true }
    let sum := chain (AluOp.ofCode 1).adjusted f (xs.zip ys)
    let difference := chain (AluOp.ofCode 3).adjusted f (xs.zip ys)
    packed.Pairs xs ys ∧ packed.number sum.1 = 9901 ∧ sum.2.c = true ∧
      packed.number difference.1 = 9989 ∧ difference.2.c = true := by
  intro xs ys f sum difference
  have hp : packed.Pairs xs ys := ⟨rfl, by decide, by decide⟩
  have hx : packed.number xs = 9945 := by decide
  have hy : packed.number ys = 9955 := by decide
  obtain ⟨⟨-, -, hsum, hcarry⟩, -, -, hdifference, hborrow⟩ := number_adjusted hp f
  rw [hx, hy] at hsum hcarry hdifference hborrow
  exact ⟨hp, hsum.trans (by decide), hcarry.mpr (by decide), Int.ofNat_inj.mp (hdifference.trans (by decide)),
    hborrow.mpr (by decide)⟩

end Micro80
