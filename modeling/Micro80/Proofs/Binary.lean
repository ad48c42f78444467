/-
  Micro80.Proofs.Binary — sums and differences of binary numbers of more than one word, of
  bytes or of 16 bits each. The carry goes from word to word. Overflow and sign are those
  of the last word: what all the words before it come to is less than one of its units, so
  that the whole is in range, or below zero, where the last word with its carry is
  (`Flags.Signs.scale`).

  Proved, for every number of words, of either width, and all flags:
  - `number_withCarry`: adding with carry from word to word leaves the words of the sum, its
    carry, and whether the sum of the signed numbers is in range; subtracting with carry
    leaves those of the difference, the borrow, and which signed number is the smaller.
-/

import Mathlib.Tactic.LinearCombination
import Micro80.Alu.Operation
import Micro80.Alu.Wide
import Micro80.Proofs.Chain

namespace Micro80

/-! ## Two's complement -/

def InRange (m : Nat) (v : Int) : Prop := -(m : Int) ≤ 2 * v ∧ 2 * v < m

instance (m : Nat) (v : Int) : Decidable (InRange m v) := inferInstanceAs (Decidable (_ ∧ _))

/-- What words stand for as a signed number: the upper half stands for the negative ones. -/
def signedNumber {n : Nat} [NeZero n] (xs : List (BitVec n)) : Int :=
  let m := (2 ^ n) ^ xs.length
  if 2 * (binary n).number xs < m then (binary n).number xs else (binary n).number xs - (m : Nat)

theorem even_base {n : Nat} [NeZero n] : 2 ∣ 2 ^ n := dvd_pow_self 2 (NeZero.ne n)

theorem toInt_cases {n : Nat} (x : BitVec n) :
    (x.msb = false ∧ 2 * x.toNat < 2 ^ n ∧ x.toInt = x.toNat) ∨
      (x.msb = true ∧ 2 ^ n ≤ 2 * x.toNat ∧ x.toInt = x.toNat - (2 ^ n : Nat)) := by
  rw [BitVec.toInt_eq_msb_cond]
  cases h : x.msb with
  | false => exact .inl ⟨rfl, BitVec.msb_eq_false_iff_two_mul_lt.mp h, rfl⟩
  | true => exact .inr ⟨rfl, BitVec.msb_eq_true_iff_two_mul_ge.mp h, rfl⟩

/-- Below the last word stand less than one of its units. -/
theorem InRange.iff_ediv {P B : Nat} (hP : 0 < P) (hB : 2 ∣ B) (v : Int) : InRange (P * B) v ↔ InRange B (v / P) := by
  obtain ⟨half, rfl⟩ := hB
  have hP' : (0 : Int) < P := Int.natCast_pos.mpr hP
  have hlow := Int.le_ediv_iff_mul_le (a := -(half : Int)) (b := v) hP'
  have hhigh := Int.ediv_lt_iff_lt_mul (a := v) (b := half) hP'
  have hcast : ((P * (2 * half) : Nat) : Int) = 2 * (half * P) := by push_cast; ring
  rw [Int.neg_mul] at hlow
  unfold InRange
  rw [hcast]
  omega

theorem upperHalf_iff_div {P B z : Nat} (hP : 0 < P) (hB : 2 ∣ B) : P * B ≤ 2 * z ↔ B ≤ 2 * (z / P) := by
  obtain ⟨half, rfl⟩ := hB
  have hdiv := Nat.le_div_iff_mul_le (x := half) (y := z) hP
  have hswap : P * (2 * half) = 2 * (half * P) := by ring
  rw [hswap]
  omega

/-! ## The signs of a result -/

/-- What the flags tell of the signs of a result, one of `m`: `z` is the result without a sign,
    and `v` the signed value that it should have. -/
structure Flags.Signs (f : Flags) (m z : Nat) (v : Int) : Prop where
  overflow : f.pv = true ↔ ¬InRange m v
  top : f.s = true ↔ m ≤ 2 * z
  negative : (f.s ^^ f.pv) = true ↔ v < 0

namespace Flags

/-- The last word tells the signs of the whole. -/
theorem Signs.scale {f : Flags} {P B z : Nat} {v : Int} (hP : 0 < P) (hB : 2 ∣ B) (h : f.Signs B (z / P) (v / P)) :
    f.Signs (P * B) z v where
  overflow := by rw [h.overflow, InRange.iff_ediv hP hB]
  top := by rw [h.top, upperHalf_iff_div hP hB]
  negative := by
    have hP' : (0 : Int) < P := Int.natCast_pos.mpr hP
    rw [h.negative, Int.ediv_lt_iff_lt_mul hP', Int.zero_mul]

section
variable {n : Nat} [NeZero n] {x y z : BitVec n} {c k : Bool} {f : Flags}

/-- Operands of one sign and a result of the other overflow, with a carry too. -/
theorem signs_of_sum (hs : f.s = z.msb) (hpv : f.pv = (x.msb == y.msb && x.msb != z.msb))
    (hvalue : x.toNat + y.toNat + c.toNat = z.toNat + 2 ^ n * k.toNat) :
    f.Signs (2 ^ n) z.toNat (x.toInt + y.toInt + c.toNat) := by
  have hc : c.toNat ≤ 1 := Bool.toNat_le c
  have hk : 2 ^ n * k.toNat = 0 ∨ 2 ^ n * k.toNat = 2 ^ n := by cases k <;> simp
  have heven : 2 ∣ 2 ^ n := even_base
  have hxlt := x.isLt
  have hylt := y.isLt
  have hzlt := z.isLt
  have hx := toInt_cases x
  have hy := toInt_cases y
  have hz := toInt_cases z
  generalize 2 ^ n = B at *
  rcases hx with ⟨hxs, hx, hxi⟩ | ⟨hxs, hx, hxi⟩ <;> rcases hy with ⟨hys, hy, hyi⟩ | ⟨hys, hy, hyi⟩ <;>
    rcases hz with ⟨hzs, hz, -⟩ | ⟨hzs, hz, -⟩
  all_goals
    rw [hxs, hys, hzs] at hpv
    rw [hzs] at hs
    constructor <;> simp [hs, hpv, InRange] <;> omega

/-- A difference is the sum with the complement, the borrow being a carry that is not there. -/
theorem signs_of_difference (hs : f.s = z.msb) (hpv : f.pv = (x.msb != y.msb && x.msb != z.msb))
    (hvalue : z.toNat + y.toNat + c.toNat = x.toNat + 2 ^ n * k.toNat) :
    f.Signs (2 ^ n) z.toNat (x.toInt - y.toInt - c.toNat) := by
  have hy := y.isLt
  have hmsb : (~~~y).msb = !y.msb := by simp [BitVec.msb_not, Nat.pos_of_ne_zero (NeZero.ne n)]
  have hnat : (~~~y).toNat = 2 ^ n - 1 - y.toNat := BitVec.toNat_not
  have hint : (~~~y).toInt = -y.toInt - 1 := by
    rw [BitVec.toInt_eq_msb_cond, BitVec.toInt_eq_msb_cond, hmsb, hnat]
    generalize 2 ^ n = B at hy ⊢
    cases y.msb <;> simp <;> omega
  have hv : x.toInt - y.toInt - c.toNat = x.toInt + (~~~y).toInt + (!c).toNat := by
    rw [hint]
    cases c <;> simp <;> omega
  rw [hv]
  apply signs_of_sum (k := !k) hs
  · rw [hpv, hmsb]
    cases x.msb <;> cases y.msb <;> rfl
  · rw [hnat]
    cases c <;> cases k <;> simp at hvalue ⊢ <;> omega

end

end Flags

/-! ## The two widths -/

inductive Width where
  | byte | word
  deriving DecidableEq, Repr

namespace Width

def bits : Width → Nat
  | byte => 8
  | word => 16

instance (w : Width) : NeZero w.bits := ⟨by cases w <;> decide⟩

def adc : (w : Width) → Flags → BitVec w.bits × BitVec w.bits → BitVec w.bits × Flags
  | byte, f, (x, y) => (AluOp.ofCode 1).apply f x y
  | word, f, (x, y) => Alu.adcWord f x y

def sbc : (w : Width) → Flags → BitVec w.bits × BitVec w.bits → BitVec w.bits × Flags
  | byte, f, (x, y) => (AluOp.ofCode 3).apply f x y
  | word, f, (x, y) => Alu.sbcWord f x y

end Width

/-! ## One word -/

theorem carry_split {m t : Nat} (h : t < 2 * m) : t = t % m + m * (decide (m ≤ t)).toNat := by
  by_cases hover : m ≤ t
  · rw [decide_eq_true hover, Bool.toNat_true, Nat.mod_eq_sub_mod hover, Nat.mod_eq_of_lt (by omega)]
    omega
  · rw [decide_eq_false hover, Bool.toNat_false, Nat.mod_eq_of_lt (by omega)]
    omega

theorem borrow_split {m t u : Nat} (ht : t < m) (hu : u ≤ m) :
    (t + m - u) % m + u = t + m * (decide (t < u)).toNat := by
  by_cases hunder : t < u
  · rw [decide_eq_true hunder, Bool.toNat_true, Nat.mod_eq_of_lt (by omega)]
    omega
  · rw [decide_eq_false hunder, Bool.toNat_false, show t + m - u = t - u + m by omega, Nat.add_mod_right,
      Nat.mod_eq_of_lt (by omega)]
    omega

namespace Width

variable (w : Width) (f : Flags) (x y : BitVec w.bits)

theorem value_adc :
    x.toNat + y.toNat + f.c.toNat = (w.adc f (x, y)).1.toNat + 2 ^ w.bits * (w.adc f (x, y)).2.c.toNat := by
  have hx := x.isLt
  have hy := y.isLt
  have hcarry : f.c.toNat ≤ 1 := Bool.toNat_le _
  have hlt : x.toNat + y.toNat + f.c.toNat < 2 * 2 ^ w.bits := by omega
  have hvalue : (w.adc f (x, y)).1.toNat = (x.toNat + y.toNat + f.c.toNat) % 2 ^ w.bits := by
    cases w with
    | byte => exact Alu.toNat_add ..
    | word => exact Alu.toNat_adcWord ..
  have hc : (w.adc f (x, y)).2.c = decide (2 ^ w.bits ≤ x.toNat + y.toNat + f.c.toNat) := by
    cases w <;> rfl
  rw [hvalue, hc]
  exact carry_split hlt

theorem value_sbc :
    (w.sbc f (x, y)).1.toNat + y.toNat + f.c.toNat = x.toNat + 2 ^ w.bits * (w.sbc f (x, y)).2.c.toNat := by
  have hy := y.isLt
  have hborrow : f.c.toNat ≤ 1 := Bool.toNat_le _
  have hle : y.toNat + f.c.toNat ≤ 2 ^ w.bits := by omega
  have hvalue : (w.sbc f (x, y)).1.toNat = (x.toNat + 2 ^ w.bits - (y.toNat + f.c.toNat)) % 2 ^ w.bits := by
    cases w with
    | byte => exact Alu.toNat_sub ..
    | word => exact Alu.toNat_sbcWord ..
  have hc : (w.sbc f (x, y)).2.c = decide (x.toNat < y.toNat + f.c.toNat) := by
    cases w <;> rfl
  rw [hvalue, hc, Nat.add_assoc]
  exact borrow_split x.isLt hle

theorem adds_adc : (binary w.bits).Adds w.adc where
  isDigit _ _ _ _ _ := trivial
  value f _ _ _ _ := w.value_adc f ..

theorem subtracts_sbc : (binary w.bits).Subtracts w.sbc where
  isDigit _ _ _ _ _ := trivial
  value f _ _ _ _ := w.value_sbc f ..

theorem signs_adc : (w.adc f (x, y)).2.Signs (2 ^ w.bits) (w.adc f (x, y)).1.toNat (x.toInt + y.toInt + f.c.toNat) :=
  Flags.signs_of_sum (by cases w <;> rfl) (by cases w <;> rfl) (w.value_adc f x y)

theorem signs_sbc : (w.sbc f (x, y)).2.Signs (2 ^ w.bits) (w.sbc f (x, y)).1.toNat (x.toInt - y.toInt - f.c.toNat) :=
  Flags.signs_of_difference (by cases w <;> rfl) (by cases w <;> rfl) (w.value_sbc f x y)

end Width

/-! ## Any number of words -/

section
variable {n : Nat} [NeZero n] (xs : List (BitVec n)) (x : BitVec n)

theorem number_binary_concat :
    (binary n).number (xs ++ [x]) = (binary n).number xs + (2 ^ n) ^ xs.length * x.toNat :=
  (binary n).number_concat xs x

/-- The last word is the number in units of that word. -/
theorem number_concat_div : (binary n).number (xs ++ [x]) / (2 ^ n) ^ xs.length = x.toNat := by
  have hlt := number_binary_lt xs
  rw [number_binary_concat, Nat.add_mul_div_left _ _ (by omega), Nat.div_eq_of_lt hlt, Nat.zero_add]

/-- The sign is that of the last word. -/
theorem signedNumber_concat :
    signedNumber (xs ++ [x]) = (binary n).number xs + ((2 ^ n) ^ xs.length : Nat) * x.toInt := by
  have hP : 0 < (2 ^ n) ^ xs.length := by positivity
  have hupper := upperHalf_iff_div (z := (binary n).number (xs ++ [x])) hP (even_base (n := n))
  rw [number_concat_div] at hupper
  unfold signedNumber
  rw [List.length_append, List.length_singleton, pow_succ]
  rcases toInt_cases x with ⟨-, hx, hxi⟩ | ⟨-, hx, hxi⟩
  · rw [if_pos (by omega), number_binary_concat, hxi]
    push_cast
    ring
  · rw [if_neg (by omega), number_binary_concat, hxi]
    push_cast
    ring

end

section
variable {α : Type} {n : Nat} [NeZero n]

theorem signedNumber_map_concat (φ : α → BitVec n) (ps : List α) (p : α) :
    signedNumber ((ps ++ [p]).map φ) =
      (binary n).number (ps.map φ) + ((2 ^ n) ^ ps.length : Nat) * (φ p).toInt := by
  rw [List.map_append, List.map_singleton, signedNumber_concat, List.length_map]

/-- The signs of a number are what the flags of its last word tell. -/
theorem Flags.Signs.of_last {g : Flags → α → BitVec n × Flags} {f : Flags} {ps : List α} {p : α} {t v : Int}
    (h : (g (chain g f ps).2 p).2.Signs (2 ^ n) (g (chain g f ps).2 p).1.toNat t)
    (hv : v = (binary n).number (chain g f ps).1 + ((2 ^ n) ^ ps.length : Nat) * t) :
    let r := chain g f (ps ++ [p])
    r.2.Signs ((2 ^ n) ^ (ps.length + 1)) ((binary n).number r.1) v := by
  intro r
  have hr : r = _ := chain_concat ..
  have hlength : (chain g f ps).1.length = ps.length := length_chain ..
  have hlt := number_binary_lt (chain g f ps).1
  rw [hlength] at hlt
  have hP : 0 < (2 ^ n) ^ ps.length := by omega
  have hdiv : v / ((2 ^ n) ^ ps.length : Nat) = t := by
    rw [hv, Int.add_mul_ediv_left _ _ (by omega), Int.ediv_eq_zero_of_lt (by omega) (by omega), Int.zero_add]
  rw [hr, pow_succ]
  apply Signs.scale hP even_base
  rw [← hlength, number_concat_div, hlength, hdiv]
  exact h

end

namespace Width

section
variable (w : Width) (f : Flags) (ps : List (BitVec w.bits × BitVec w.bits)) (p : BitVec w.bits × BitVec w.bits)

theorem signs_chain_adc :
    let r := chain w.adc f (ps ++ [p])
    r.2.Signs ((2 ^ w.bits) ^ (ps.length + 1)) ((binary w.bits).number r.1)
      (signedNumber ((ps ++ [p]).map Prod.fst) + signedNumber ((ps ++ [p]).map Prod.snd) + f.c.toNat) := by
  apply (w.signs_adc _ p.1 p.2).of_last
  have hbelow : (binary w.bits).number (ps.map Prod.fst) + (binary w.bits).number (ps.map Prod.snd) + f.c.toNat =
      (binary w.bits).number (chain w.adc f ps).1 + (2 ^ w.bits) ^ ps.length * (chain w.adc f ps).2.c.toNat :=
    w.adds_adc.balance f fun _ _ => ⟨trivial, trivial⟩
  have hbelow := congrArg (Nat.cast (R := Int)) hbelow
  push_cast at hbelow
  rw [signedNumber_map_concat, signedNumber_map_concat]
  push_cast
  linear_combination hbelow

theorem signs_chain_sbc :
    let r := chain w.sbc f (ps ++ [p])
    r.2.Signs ((2 ^ w.bits) ^ (ps.length + 1)) ((binary w.bits).number r.1)
      (signedNumber ((ps ++ [p]).map Prod.fst) - signedNumber ((ps ++ [p]).map Prod.snd) - f.c.toNat) := by
  apply (w.signs_sbc _ p.1 p.2).of_last
  have hbelow : (binary w.bits).number (chain w.sbc f ps).1 + (binary w.bits).number (ps.map Prod.snd) + f.c.toNat =
      (binary w.bits).number (ps.map Prod.fst) + (2 ^ w.bits) ^ ps.length * (chain w.sbc f ps).2.c.toNat :=
    w.subtracts_sbc.balance f fun _ _ => ⟨trivial, trivial⟩
  have hbelow := congrArg (Nat.cast (R := Int)) hbelow
  push_cast at hbelow
  rw [signedNumber_map_concat, signedNumber_map_concat]
  push_cast
  linear_combination -hbelow

theorem n_chain_adc : (chain w.adc f (ps ++ [p])).2.n = false := by
  rw [chain_concat]
  cases w <;> rfl

theorem n_chain_sbc : (chain w.sbc f (ps ++ [p])).2.n = true := by
  rw [chain_concat]
  cases w <;> rfl

end

/-- Sums and differences of at least one word, of bytes or of 16 bits each. -/
theorem number_withCarry (w : Width) {xs ys : List (BitVec w.bits)} (hlength : xs.length = ys.length)
    (hpos : 1 ≤ xs.length) (f : Flags) :
    let n := xs.length
    let m := (2 ^ w.bits) ^ n
    let number := (binary w.bits).number
    let sum := chain w.adc f (xs.zip ys)
    let difference := chain w.sbc f (xs.zip ys)
    (sum.1.length = n ∧ number sum.1 = (number xs + number ys + f.c.toNat) % m ∧
      (sum.2.c = true ↔ m ≤ number xs + number ys + f.c.toNat) ∧
      (sum.2.pv = true ↔ ¬InRange m (signedNumber xs + signedNumber ys + f.c.toNat)) ∧
      (sum.2.s = true ↔ m ≤ 2 * number sum.1) ∧ sum.2.n = false) ∧
    difference.1.length = n ∧ (number difference.1 : Int) = (number xs - number ys - f.c.toNat) % m ∧
      (difference.2.c = true ↔ number xs < number ys + f.c.toNat) ∧
      (difference.2.pv = true ↔ ¬InRange m (signedNumber xs - signedNumber ys - f.c.toNat)) ∧
      (difference.2.s = true ↔ m ≤ 2 * number difference.1) ∧
      ((difference.2.s ^^ difference.2.pv) = true ↔ signedNumber xs < signedNumber ys + f.c.toNat) ∧
      difference.2.n = true := by
  intro n m number sum difference
  have hp : (binary w.bits).Pairs xs ys := ⟨hlength, fun _ _ => trivial, fun _ _ => trivial⟩
  obtain ⟨hsl, -, hsn, hsc⟩ := w.adds_adc.number_chain hp f
  obtain ⟨hdl, -, hdn, hdc⟩ := w.subtracts_sbc.number_chain hp f
  obtain ⟨ps, p, hzip⟩ : ∃ ps p, xs.zip ys = ps ++ [p] := by
    rcases List.eq_nil_or_concat (xs.zip ys) with hnil | ⟨ps, p, hconcat⟩
    · have hempty := hp.length_zip
      rw [hnil, List.length_nil] at hempty
      omega
    · exact ⟨ps, p, by rw [hconcat, List.concat_eq_append]⟩
  have hn : ps.length + 1 = n := by
    have hzl := hp.length_zip
    rw [hzip, List.length_append, List.length_singleton] at hzl
    exact hzl
  have hss := w.signs_chain_adc f ps p
  have hds := w.signs_chain_sbc f ps p
  have hs0 := w.n_chain_adc f ps p
  have hd1 := w.n_chain_sbc f ps p
  rw [← hzip, hp.map_fst_zip, hp.map_snd_zip, hn] at hss hds
  rw [← hzip] at hs0 hd1
  refine ⟨⟨hsl, hsn, hsc, hss.overflow, hss.top, hs0⟩, hdl, hdn, hdc, hds.overflow, hds.top, ?_, hd1⟩
  rw [hds.negative]
  omega

/-- The greatest and the least signed number of 32 bits with a carry: the sum is in range and carries,
    the difference is out of range and borrows. -/
theorem number_withCarry_extremes :
    let xs : List (BitVec word.bits) := [0xFFFF, 0x7FFF]
    let ys : List (BitVec word.bits) := [0x0000, 0x8000]
    let f : Flags := { c := true }
    let number := (binary word.bits).number
    let sum := chain word.adc f (xs.zip ys)
    let difference := chain word.sbc f (xs.zip ys)
    xs.length = ys.length ∧ 1 ≤ xs.length ∧ signedNumber xs = 2147483647 ∧ signedNumber ys = -2147483648 ∧
      number sum.1 = 0 ∧ sum.2.c = true ∧ ¬sum.2.pv = true ∧
      number difference.1 = 4294967294 ∧ difference.2.c = true ∧ difference.2.pv = true ∧
      ¬(difference.2.s ^^ difference.2.pv) = true := by
  intro xs ys f number sum difference
  have hlength : xs.length = ys.length := rfl
  have hpos : 1 ≤ xs.length := by decide
  have hx : (binary word.bits).number xs = 2147483647 := by decide
  have hy : (binary word.bits).number ys = 2147483648 := by decide
  have hsx : signedNumber xs = 2147483647 := by decide
  have hsy : signedNumber ys = -2147483648 := by decide
  obtain ⟨⟨-, hsum, hcarry, hover, -⟩, -, hdifference, hborrow, hunder, -, hless, -⟩ :=
    number_withCarry word hlength hpos f
  rw [hx, hy] at hsum hcarry hdifference hborrow
  rw [hsx, hsy] at hover hunder hless
  exact ⟨hlength, hpos, hsx, hsy, hsum.trans (by decide), hcarry.mpr (by decide), fun h => hover.mp h (by decide),
    Int.ofNat_inj.mp (hdifference.trans (by decide)), hborrow.mpr (by decide), hunder.mpr (by decide),
    fun h => absurd (hless.mp h) (by decide)⟩

end Width

end Micro80
