/-
  Micro80.Text.Hex — fixed-width hexadecimal. A byte is two digits and a word four, high
  digit first and in lower case; reading takes digits of either case.

  What is written reads as the number that it was (`number?_byteDigits`, `number?_wordDigits`).
-/

import Micro80.Word

namespace Micro80.Text.Hex

def digit (n : BitVec 4) : Char := n.toNat.digitChar

def byteDigits (b : Byte) : List Char := [digit (b.extractLsb' 4 4), digit (b.extractLsb' 0 4)]

def wordDigits (w : Word) : List Char := byteDigits w.high ++ byteDigits w.low

def byte (b : Byte) : String := String.ofList (byteDigits b)

def word (w : Word) : String := String.ofList (wordDigits w)

/-! ## Reading -/

def digitValue? (c : Char) : Option Nat :=
  if '0' ≤ c ∧ c ≤ '9' then some (c.toNat - '0'.toNat)
  else if 'a' ≤ c ∧ c ≤ 'f' then some (c.toNat - 'a'.toNat + 10)
  else if 'A' ≤ c ∧ c ≤ 'F' then some (c.toNat - 'A'.toNat + 10)
  else none

/-- The number that a run of digits spells; no digits spell none. -/
def number? : List Char → Option Nat
  | [] => none
  | cs => cs.foldlM (fun n c => (digitValue? c).map (16 * n + ·)) 0

@[simp] theorem digitValue?_digit (n : BitVec 4) : digitValue? (digit n) = some n.toNat := by
  revert n
  decide +kernel

theorem toNat_nibbles (b : Byte) : 16 * (b.extractLsb' 4 4).toNat + (b.extractLsb' 0 4).toNat = b.toNat := by
  revert b
  decide +kernel

/-- What is written reads as the number that it was. -/
theorem number?_byteDigits (b : Byte) : number? (byteDigits b) = some b.toNat := by
  have h := toNat_nibbles b
  simp only [number?, byteDigits, List.foldlM_cons, List.foldlM_nil, digitValue?_digit, Option.map_some,
    Option.bind_eq_bind, Option.bind_some, Nat.mul_zero, Nat.zero_add, h]
  rfl

theorem number?_wordDigits (w : Word) : number? (wordDigits w) = some w.toNat := by
  have hw := Word.toNat_ofBytes w.high w.low
  rw [Word.ofBytes_high_low, ← toNat_nibbles w.high, ← toNat_nibbles w.low] at hw
  simp only [number?, wordDigits, byteDigits, List.cons_append, List.nil_append, List.foldlM_cons, List.foldlM_nil,
    digitValue?_digit, Option.map_some, Option.bind_eq_bind, Option.bind_some]
  exact congrArg some (by omega)

def bytes? : List Char → Option (List Byte)
  | [] => some []
  | [_] => none
  | a :: b :: rest => do
    let high ← digitValue? a
    let low ← digitValue? b
    let tail ← bytes? rest
    return BitVec.ofNat 8 (16 * high + low) :: tail

end Micro80.Text.Hex
