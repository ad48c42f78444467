/-
  Micro80.Proofs.Chain — numbers of more than one word. The words of two numbers are combined
  one after the other, the least significant first, and the flags go from each to the next
  (`chain`). What the words stand for is a radix: a base, and a digit for each word.

  Proved, for numbers of any length in any radix:
  - `Adds.number_chain`: where every word is a sum with the carry, so is the number, modulo
    as many places as there are, and the carry at the end is that of the number.
  - `Subtracts.number_chain`: the same of differences and the borrow.
-/

import Mathlib.Data.Nat.Digits.Defs
import Mathlib.Tactic.Ring
import Micro80.State.Flags

namespace Micro80

variable {α β : Type}

/-! ## Flags from word to word -/

/-- Each element in turn, with the flags that the one before it left; what each comes to, and
    the flags at the end. -/
def chain (g : Flags → α → β × Flags) (f : Flags) : List α → List β × Flags
  | [] => ([], f)
  | x :: xs =>
    let (z, f) := g f x
    let (zs, f) := chain g f xs
    (z :: zs, f)

section
variable (g : Flags → α → β × Flags) (f : Flags)

theorem chain_cons (x : α) (xs : List α) :
    chain g f (x :: xs) = ((g f x).1 :: (chain g (g f x).2 xs).1, (chain g (g f x).2 xs).2) := rfl

/-- The last element is taken with the flags that all before it left. -/
theorem chain_concat (xs : List α) (x : α) :
    chain g f (xs ++ [x]) = ((chain g f xs).1 ++ [(g (chain g f xs).2 x).1], (g (chain g f xs).2 x).2) := by
  induction xs generalizing f with
  | nil => rfl
  | cons y ys ih => rw [List.cons_append, chain_cons, chain_cons, ih, List.cons_append]

theorem length_chain (xs : List α) : (chain g f xs).1.length = xs.length := by
  induction xs generalizing f with
  | nil => rfl
  | cons x xs ih => rw [chain_cons, List.length_cons, List.length_cons, ih]

theorem forall_mem_chain {P : α → Prop} {Q : β → Prop} (h : ∀ f x, P x → Q (g f x).1) {xs : List α}
    (hxs : ∀ x ∈ xs, P x) : ∀ z ∈ (chain g f xs).1, Q z := by
  induction xs generalizing f with
  | nil => exact fun z hz => absurd hz List.not_mem_nil
  | cons x xs ih =>
    rw [List.forall_mem_cons] at hxs
    rw [chain_cons, List.forall_mem_cons]
    exact ⟨h f x hxs.1, ih _ hxs.2⟩

end

/-! ## Numbers -/

/-- What words stand for: digits below a base, some words perhaps standing for none. -/
structure Radix (α : Type) where
  base : Nat
  value : α → Nat
  IsDigit : α → Prop
  one_lt_base : 1 < base
  value_lt : ∀ x, IsDigit x → value x < base

namespace Radix

variable (ρ : Radix α)

def number (xs : List α) : Nat := Nat.ofDigits ρ.base (xs.map ρ.value)

theorem number_cons (x : α) (xs : List α) : ρ.number (x :: xs) = ρ.value x + ρ.base * ρ.number xs :=
  Nat.ofDigits_cons

theorem number_concat (xs : List α) (x : α) : ρ.number (xs ++ [x]) = ρ.number xs + ρ.base ^ xs.length * ρ.value x := by
  rw [number, List.map_append, Nat.ofDigits_append, List.length_map, List.map_singleton, Nat.ofDigits_singleton]
  rfl

theorem number_lt {xs : List α} (h : ∀ x ∈ xs, ρ.IsDigit x) : ρ.number xs < ρ.base ^ xs.length := by
  have hdigits : ∀ v ∈ xs.map ρ.value, v < ρ.base := by
    intro v hv
    obtain ⟨x, hx, rfl⟩ := List.mem_map.mp hv
    exact ρ.value_lt x (h x hx)
  have hlt := Nat.ofDigits_lt_base_pow_length ρ.one_lt_base hdigits
  rwa [List.length_map] at hlt

/-- What is carried out of the first place is carried into the rest. -/
theorem carry_cons {u v w : α} {us vs ws : List α} {c k c' n : Nat}
    (hfirst : ρ.value u + ρ.value v + c = ρ.value w + ρ.base * k)
    (hrest : ρ.number us + ρ.number vs + k = ρ.number ws + ρ.base ^ n * c') :
    ρ.number (u :: us) + ρ.number (v :: vs) + c = ρ.number (w :: ws) + ρ.base ^ (n + 1) * c' := by
  simp only [number_cons]
  calc ρ.value u + ρ.base * ρ.number us + (ρ.value v + ρ.base * ρ.number vs) + c
      = ρ.value u + ρ.value v + c + ρ.base * (ρ.number us + ρ.number vs) := by ring
    _ = ρ.value w + ρ.base * (ρ.number us + ρ.number vs + k) := by rw [hfirst]; ring
    _ = ρ.value w + ρ.base * (ρ.number ws + ρ.base ^ n * c') := by rw [hrest]
    _ = ρ.value w + ρ.base * ρ.number ws + ρ.base ^ (n + 1) * c' := by ring

/-! ## Sums and differences -/

/-- Of two digits, `g` leaves the sum with the carry: a digit, and a carry for the next place. -/
structure Adds (g : Flags → α × α → α × Flags) : Prop where
  isDigit : ∀ f {x y}, ρ.IsDigit x → ρ.IsDigit y → ρ.IsDigit (g f (x, y)).1
  value : ∀ f {x y}, ρ.IsDigit x → ρ.IsDigit y →
    ρ.value x + ρ.value y + f.c.toNat = ρ.value (g f (x, y)).1 + ρ.base * (g f (x, y)).2.c.toNat

/-- Of two digits, `g` leaves the difference less the borrow: a digit, and a borrow from the
    next place. -/
structure Subtracts (g : Flags → α × α → α × Flags) : Prop where
  isDigit : ∀ f {x y}, ρ.IsDigit x → ρ.IsDigit y → ρ.IsDigit (g f (x, y)).1
  value : ∀ f {x y}, ρ.IsDigit x → ρ.IsDigit y →
    ρ.value (g f (x, y)).1 + ρ.value y + f.c.toNat = ρ.value x + ρ.base * (g f (x, y)).2.c.toNat

variable {ρ} {g : Flags → α × α → α × Flags}

theorem Adds.balance (h : ρ.Adds g) (f : Flags) {ps : List (α × α)}
    (hps : ∀ p ∈ ps, ρ.IsDigit p.1 ∧ ρ.IsDigit p.2) :
    ρ.number (ps.map Prod.fst) + ρ.number (ps.map Prod.snd) + f.c.toNat =
      ρ.number (chain g f ps).1 + ρ.base ^ ps.length * (chain g f ps).2.c.toNat := by
  induction ps generalizing f with
  | nil => simp [chain, number]
  | cons p ps ih =>
    rw [List.forall_mem_cons] at hps
    exact ρ.carry_cons (h.value f hps.1.1 hps.1.2) (ih _ hps.2)

theorem Subtracts.balance (h : ρ.Subtracts g) (f : Flags) {ps : List (α × α)}
    (hps : ∀ p ∈ ps, ρ.IsDigit p.1 ∧ ρ.IsDigit p.2) :
    ρ.number (chain g f ps).1 + ρ.number (ps.map Prod.snd) + f.c.toNat =
      ρ.number (ps.map Prod.fst) + ρ.base ^ ps.length * (chain g f ps).2.c.toNat := by
  induction ps generalizing f with
  | nil => simp [chain, number]
  | cons p ps ih =>
    rw [List.forall_mem_cons] at hps
    exact ρ.carry_cons (h.value f hps.1.1 hps.1.2) (ih _ hps.2)

structure Pairs (ρ : Radix α) (xs ys : List α) : Prop where
  length_eq : xs.length = ys.length
  left : ∀ x ∈ xs, ρ.IsDigit x
  right : ∀ y ∈ ys, ρ.IsDigit y

section
variable {xs ys : List α} (hp : ρ.Pairs xs ys) (f : Flags)
include hp

theorem Pairs.mem_zip : ∀ p ∈ xs.zip ys, ρ.IsDigit p.1 ∧ ρ.IsDigit p.2 := fun _ h =>
  ⟨hp.left _ (List.of_mem_zip h).1, hp.right _ (List.of_mem_zip h).2⟩

theorem Pairs.length_zip : (xs.zip ys).length = xs.length := by
  rw [List.length_zip, ← hp.length_eq, Nat.min_self]

theorem Pairs.map_fst_zip : (xs.zip ys).map Prod.fst = xs := List.map_fst_zip (Nat.le_of_eq hp.length_eq)

theorem Pairs.map_snd_zip : (xs.zip ys).map Prod.snd = ys := List.map_snd_zip (Nat.le_of_eq hp.length_eq.symm)

/-- What is made of pairs of digits is as long a number in digits. -/
theorem Pairs.chain_digits (hdigit : ∀ f {x y}, ρ.IsDigit x → ρ.IsDigit y → ρ.IsDigit (g f (x, y)).1) :
    let r := chain g f (xs.zip ys)
    r.1.length = xs.length ∧ (∀ z ∈ r.1, ρ.IsDigit z) ∧ ρ.number r.1 < ρ.base ^ xs.length := by
  intro r
  have hlength : r.1.length = xs.length := (length_chain ..).trans hp.length_zip
  have hdigits : ∀ z ∈ r.1, ρ.IsDigit z :=
    forall_mem_chain g f (fun f _ h => hdigit f h.1 h.2) hp.mem_zip
  have hlt := ρ.number_lt hdigits
  rw [hlength] at hlt
  exact ⟨hlength, hdigits, hlt⟩

/-- A sum of any length, and the carry out of it. -/
theorem Adds.number_chain (h : ρ.Adds g) :
    let r := chain g f (xs.zip ys)
    r.1.length = xs.length ∧ (∀ z ∈ r.1, ρ.IsDigit z) ∧
      ρ.number r.1 = (ρ.number xs + ρ.number ys + f.c.toNat) % ρ.base ^ xs.length ∧
      (r.2.c = true ↔ ρ.base ^ xs.length ≤ ρ.number xs + ρ.number ys + f.c.toNat) := by
  intro r
  obtain ⟨hlength, hdigits, (hlt : ρ.number r.1 < ρ.base ^ xs.length)⟩ := hp.chain_digits f h.isDigit
  have hbalance : ρ.number xs + ρ.number ys + f.c.toNat = ρ.number r.1 + ρ.base ^ xs.length * r.2.c.toNat := by
    have hzip := h.balance f hp.mem_zip
    rwa [hp.map_fst_zip, hp.map_snd_zip, hp.length_zip] at hzip
  refine ⟨hlength, hdigits, ?_, ?_⟩
  · rw [hbalance, Nat.add_mul_mod_self_left]
    exact (Nat.mod_eq_of_lt hlt).symm
  · cases hc : r.2.c with
    | false =>
      rw [hc, Bool.toNat_false, Nat.mul_zero] at hbalance
      exact iff_of_false Bool.false_ne_true (by omega)
    | true =>
      rw [hc, Bool.toNat_true, Nat.mul_one] at hbalance
      exact iff_of_true rfl (by omega)

/-- A difference of any length, and the borrow that it takes. -/
theorem Subtracts.number_chain (h : ρ.Subtracts g) :
    let r := chain g f (xs.zip ys)
    r.1.length = xs.length ∧ (∀ z ∈ r.1, ρ.IsDigit z) ∧
      (ρ.number r.1 : Int) = (ρ.number xs - ρ.number ys - f.c.toNat : Int) % (ρ.base ^ xs.length : Nat) ∧
      (r.2.c = true ↔ ρ.number xs < ρ.number ys + f.c.toNat) := by
  intro r
  obtain ⟨hlength, hdigits, (hlt : ρ.number r.1 < ρ.base ^ xs.length)⟩ := hp.chain_digits f h.isDigit
  have hbalance : ρ.number r.1 + ρ.number ys + f.c.toNat = ρ.number xs + ρ.base ^ xs.length * r.2.c.toNat := by
    have hzip := h.balance f hp.mem_zip
    rwa [hp.map_fst_zip, hp.map_snd_zip, hp.length_zip] at hzip
  refine ⟨hlength, hdigits, ?_, ?_⟩
  · have hdifference : (ρ.number xs - ρ.number ys - f.c.toNat : Int) =
        ρ.number r.1 - (ρ.base ^ xs.length : Nat) * (r.2.c.toNat : Int) := by
      have hcast := congrArg (Nat.cast (R := Int)) hbalance
      simp only [Nat.cast_add, Nat.cast_mul] at hcast
      omega
    rw [hdifference, Int.sub_mul_emod_self_left]
    exact (Int.emod_eq_of_lt (Int.natCast_nonneg _) (Int.ofNat_lt.mpr hlt)).symm
  · cases hc : r.2.c with
    | false =>
      rw [hc, Bool.toNat_false, Nat.mul_zero] at hbalance
      exact iff_of_false Bool.false_ne_true (by omega)
    | true =>
      rw [hc, Bool.toNat_true, Nat.mul_one] at hbalance
      exact iff_of_true rfl (by omega)

end

end Radix

/-! ## Binary words -/

def binary (n : Nat) [NeZero n] : Radix (BitVec n) where
  base := 2 ^ n
  value := BitVec.toNat
  IsDigit _ := True
  one_lt_base := Nat.one_lt_two_pow (NeZero.ne n)
  value_lt x _ := x.isLt

section
variable {n : Nat} [NeZero n]

theorem number_binary_lt (xs : List (BitVec n)) : (binary n).number xs < (2 ^ n) ^ xs.length :=
  (binary n).number_lt fun _ _ => trivial

/-- As many words are told apart by what they stand for. -/
theorem number_binary_inj {xs ys : List (BitVec n)} (hlength : xs.length = ys.length)
    (h : (binary n).number xs = (binary n).number ys) : xs = ys := by
  have hlt : ∀ (zs : List (BitVec n)), ∀ v ∈ zs.map BitVec.toNat, v < 2 ^ n := by
    intro zs v hv
    obtain ⟨z, -, rfl⟩ := List.mem_map.mp hv
    exact z.isLt
  have hvalues : xs.map BitVec.toNat = ys.map BitVec.toNat :=
    Nat.ofDigits_inj_of_len_eq (binary n).one_lt_base (by rw [List.length_map, List.length_map, hlength])
      (hlt xs) (hlt ys) h
  exact (List.map_inj_right fun _ _ => BitVec.eq_of_toNat_eq).mp hvalues

end

end Micro80
