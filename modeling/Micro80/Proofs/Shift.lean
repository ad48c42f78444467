/-
  Micro80.Proofs.Shift — numbers of more than one byte, shifted by a bit. A shift up goes from
  the least significant byte to the most, a shift down the other way; the bit that leaves a
  byte is in the carry and enters the next. In every place what came in and what was there
  come to what is there and what goes out (`Radix.scaled_cons`, `Radix.divided_concat`), so
  that a shift down undoes a shift up.

  Proved, for every number of bytes and all flags:
  - `number_shifted`: a shift up doubles the number and adds the carry, a shift down halves
    it below the carry, the carry takes the bit that leaves, and one undoes the other.
-/

import Micro80.Alu.Rotation
import Micro80.Proofs.Chain

namespace Micro80

/-! ## Places of a product and of a quotient -/

namespace Radix

variable {α : Type} (ρ : Radix α)

/-- Multiplied from the least significant place on: `d` is carried from the first to the rest. -/
theorem scaled_cons {x z : α} {xs zs : List α} {k c d e n : Nat}
    (hfirst : k * ρ.value x + c = ρ.value z + ρ.base * d)
    (hrest : k * ρ.number xs + d = ρ.number zs + ρ.base ^ n * e) :
    k * ρ.number (x :: xs) + c = ρ.number (z :: zs) + ρ.base ^ (n + 1) * e := by
  simp only [number_cons]
  calc k * (ρ.value x + ρ.base * ρ.number xs) + c
      = k * ρ.value x + c + ρ.base * (k * ρ.number xs) := by ring
    _ = ρ.value z + ρ.base * (k * ρ.number xs + d) := by rw [hfirst]; ring
    _ = ρ.value z + ρ.base * (ρ.number zs + ρ.base ^ n * e) := by rw [hrest]
    _ = ρ.value z + ρ.base * ρ.number zs + ρ.base ^ (n + 1) * e := by ring

/-- Divided from the most significant place on: `d` remains of it for the rest. -/
theorem divided_concat {x z : α} {xs zs : List α} {k c d e n : Nat} (hxs : xs.length = n) (hzs : zs.length = n)
    (hfirst : ρ.base * c + ρ.value x = k * ρ.value z + d)
    (hrest : ρ.base ^ n * d + ρ.number xs = k * ρ.number zs + e) :
    ρ.base ^ (n + 1) * c + ρ.number (xs ++ [x]) = k * ρ.number (zs ++ [z]) + e := by
  simp only [number_concat, hxs, hzs]
  calc ρ.base ^ (n + 1) * c + (ρ.number xs + ρ.base ^ n * ρ.value x)
      = ρ.base ^ n * (ρ.base * c + ρ.value x) + ρ.number xs := by ring
    _ = k * (ρ.base ^ n * ρ.value z) + (ρ.base ^ n * d + ρ.number xs) := by rw [hfirst]; ring
    _ = k * (ρ.number zs + ρ.base ^ n * ρ.value z) + e := by rw [hrest]; ring

end Radix

/-- Divided again by what it was multiplied by, with what that carried, a number is what it was. -/
theorem scaled_divided {k m X Y Z c d e : Nat} (hc : c < k) (he : e < k) (hscaled : k * X + c = Z + m * d)
    (hdivided : m * d + Z = k * Y + e) : Y = X ∧ e = c := by
  have hsame : k * X + c = k * Y + e := by omega
  have hk : 0 < k := by omega
  have hX : (k * X + c) / k = X := by rw [Nat.mul_add_div hk, Nat.div_eq_of_lt hc, Nat.add_zero]
  have hY : (k * Y + e) / k = Y := by rw [Nat.mul_add_div hk, Nat.div_eq_of_lt he, Nat.add_zero]
  have hquotient : Y = X := by rw [← hX, ← hY, hsame]
  rw [hquotient] at hsame
  exact ⟨hquotient, by omega⟩

/-! ## One byte -/

namespace Alu

variable (f : Flags) (x : Byte)

theorem value_rla : 2 * x.toNat + f.c.toNat = (rla f x).1.toNat + 2 ^ 8 * (rla f x).2.c.toNat := by
  have checked : ∀ (x : Byte) (c : Bool),
      2 * x.toNat + c.toNat = (x <<< 1 ||| BitVec.ofNat 8 c.toNat).toNat + 2 ^ 8 * x.msb.toNat := by decide +kernel
  exact checked x f.c

theorem value_rra : 2 ^ 8 * f.c.toNat + x.toNat = 2 * (rra f x).1.toNat + (rra f x).2.c.toNat := by
  have checked : ∀ (x : Byte) (c : Bool), 2 ^ 8 * c.toNat + x.toNat =
      2 * (x >>> 1 ||| BitVec.ofNat 8 (128 * c.toNat)).toNat + (x.getLsbD 0).toNat := by decide +kernel
  exact checked x f.c

end Alu

/-! ## Any number of bytes -/

/-- The bits of the bytes, the least significant byte first, each in the next higher place. -/
def shiftUp (f : Flags) (xs : List Byte) : List Byte × Flags := chain Alu.rla f xs

def shiftDown (f : Flags) (xs : List Byte) : List Byte × Flags :=
  let (zs, f) := chain Alu.rra f xs.reverse
  (zs.reverse, f)

section
variable (f : Flags) (xs : List Byte)

theorem length_shiftUp : (shiftUp f xs).1.length = xs.length := length_chain ..

theorem length_shiftDown : (shiftDown f xs).1.length = xs.length := by
  rw [shiftDown, List.length_reverse, length_chain, List.length_reverse]

theorem number_shiftUp :
    2 * (binary 8).number xs + f.c.toNat =
      (binary 8).number (shiftUp f xs).1 + 256 ^ xs.length * (shiftUp f xs).2.c.toNat := by
  induction xs generalizing f with
  | nil => simp [shiftUp, chain, Radix.number]
  | cons x xs ih => exact (binary 8).scaled_cons (Alu.value_rla f x) (ih _)

/-- The bytes of `ys` are in the order of the shift, the most significant first. -/
theorem number_chain_rra (ys : List Byte) :
    256 ^ ys.length * f.c.toNat + (binary 8).number ys.reverse =
      2 * (binary 8).number (chain Alu.rra f ys).1.reverse + (chain Alu.rra f ys).2.c.toNat := by
  induction ys generalizing f with
  | nil => simp [chain, Radix.number]
  | cons y ys ih =>
    rw [chain_cons, List.reverse_cons, List.reverse_cons]
    refine (binary 8).divided_concat List.length_reverse ?_ (Alu.value_rra f y) (ih _)
    rw [List.length_reverse, length_chain]

theorem number_shiftDown :
    256 ^ xs.length * f.c.toNat + (binary 8).number xs =
      2 * (binary 8).number (shiftDown f xs).1 + (shiftDown f xs).2.c.toNat := by
  have h := number_chain_rra f xs.reverse
  rwa [List.length_reverse, List.reverse_reverse] at h

/-- A rotation leaves all flags alone but three, and clears two of these. -/
theorem flags_chain {g : Flags → Byte → Byte × Flags}
    (hg : ∀ f x, (g f x).2 = { f with h := false, n := false, c := (g f x).2.c }) {xs : List Byte}
    (hpos : 1 ≤ xs.length) :
    (chain g f xs).2 = { f with h := false, n := false, c := (chain g f xs).2.c } := by
  induction xs generalizing f with
  | nil => cases hpos
  | cons x xs ih =>
    rw [chain_cons]
    by_cases hxs : 1 ≤ xs.length
    · rw [ih _ hxs, hg]
    · have hnil : xs = [] := List.eq_nil_of_length_eq_zero (by omega)
      subst hnil
      exact hg f x

theorem flags_shiftUp {xs : List Byte} (hpos : 1 ≤ xs.length) :
    (shiftUp f xs).2 = { f with h := false, n := false, c := (shiftUp f xs).2.c } :=
  flags_chain f (fun _ _ => rfl) hpos

theorem flags_shiftDown {xs : List Byte} (hpos : 1 ≤ xs.length) :
    (shiftDown f xs).2 = { f with h := false, n := false, c := (shiftDown f xs).2.c } :=
  flags_chain f (fun _ _ => rfl) (by rwa [List.length_reverse])

theorem shiftDown_shiftUp {xs : List Byte} (hpos : 1 ≤ xs.length) :
    shiftDown (shiftUp f xs).2 (shiftUp f xs).1 = (xs, { f with h := false, n := false }) := by
  have hlength := length_shiftUp f xs
  have hup := number_shiftUp f xs
  have hdown := number_shiftDown (shiftUp f xs).2 (shiftUp f xs).1
  rw [hlength] at hdown
  obtain ⟨hnumber, hcarry⟩ := scaled_divided (Bool.toNat_lt _) (Bool.toNat_lt _) hup hdown
  have hbytes : (shiftDown (shiftUp f xs).2 (shiftUp f xs).1).1 = xs :=
    number_binary_inj ((length_shiftDown ..).trans hlength) hnumber
  have hc : (shiftDown (shiftUp f xs).2 (shiftUp f xs).1).2.c = f.c := by
    rw [Bool.eq_iff_iff, ← Bool.toNat_eq_one, ← Bool.toNat_eq_one, hcarry]
  refine Prod.ext hbytes ?_
  rw [flags_shiftDown _ (by omega), hc, flags_shiftUp f hpos]

end

/-- Shifts of at least one byte. -/
theorem number_shifted {xs : List Byte} (hpos : 1 ≤ xs.length) (f : Flags) :
    let n := xs.length
    let number := (binary 8).number
    let up := shiftUp f xs
    let down := shiftDown f xs
    (up.1.length = n ∧ number up.1 = (2 * number xs + f.c.toNat) % 256 ^ n ∧
      (up.2.c = true ↔ 256 ^ n ≤ 2 * number xs) ∧
      up.2 = { f with h := false, n := false, c := up.2.c }) ∧
    (down.1.length = n ∧ number down.1 = (f.c.toNat * 256 ^ n + number xs) / 2 ∧
      down.2.c.toNat = number xs % 2 ∧
      down.2 = { f with h := false, n := false, c := down.2.c }) ∧
    shiftDown up.2 up.1 = (xs, { f with h := false, n := false }) := by
  intro n number up down
  have heven : 2 ∣ 256 ^ n := dvd_pow (by decide) (by omega)
  have hcarry : f.c.toNat ≤ 1 := Bool.toNat_le _
  have hup : 2 * number xs + f.c.toNat = number up.1 + 256 ^ n * up.2.c.toNat := number_shiftUp f xs
  have hdown : 256 ^ n * f.c.toNat + number xs = 2 * number down.1 + down.2.c.toNat := number_shiftDown f xs
  have hlength : up.1.length = n := length_shiftUp f xs
  have hlt : number up.1 < 256 ^ n := by
    rw [← hlength]
    exact number_binary_lt up.1
  refine ⟨⟨hlength, ?double, ?top, flags_shiftUp f hpos⟩,
    ⟨length_shiftDown f xs, ?half, ?bottom, flags_shiftDown f hpos⟩, shiftDown_shiftUp f hpos⟩
  case double =>
    rw [hup, Nat.add_mul_mod_self_left, Nat.mod_eq_of_lt hlt]
  case top =>
    cases hc : up.2.c with
    | false =>
      rw [hc, Bool.toNat_false] at hup
      exact iff_of_false Bool.false_ne_true (by omega)
    | true =>
      rw [hc, Bool.toNat_true] at hup
      exact iff_of_true rfl (by omega)
  case half =>
    have hc : down.2.c.toNat ≤ 1 := Bool.toNat_le _
    rw [Nat.mul_comm, hdown]
    omega
  case bottom =>
    have hc : down.2.c.toNat ≤ 1 := Bool.toNat_le _
    have hzero : 256 ^ n * f.c.toNat % 2 = 0 := Nat.mod_eq_zero_of_dvd (heven.mul_right _)
    omega

/-- Two bytes with a carry: 8001h goes up to 0003h and down to C000h. -/
theorem number_shifted_carries :
    let xs : List Byte := [0x01, 0x80]
    let f : Flags := { c := true }
    let number := (binary 8).number
    let up := shiftUp f xs
    let down := shiftDown f xs
    1 ≤ xs.length ∧ number up.1 = 0x0003 ∧ up.2 = { c := true } ∧ number down.1 = 0xC000 ∧ down.2 = { c := true } ∧
      shiftDown up.2 up.1 = (xs, { c := true }) := by
  intro xs f number up down
  have hpos : 1 ≤ xs.length := by decide
  have hx : (binary 8).number xs = 0x8001 := by decide
  obtain ⟨⟨-, hup, htop, hupf⟩, ⟨-, hdown, hbottom, hdownf⟩, hback⟩ := number_shifted hpos f
  rw [hx] at hup htop hdown hbottom
  rw [htop.mpr (by decide)] at hupf
  rw [show (shiftDown f xs).2.c = true from Bool.toNat_eq_one.mp hbottom] at hdownf
  exact ⟨hpos, hup.trans (by decide), hupf, hdown.trans (by decide), hdownf, hback⟩

end Micro80
