/-
  Micro80.Text.Blank — white space as Unicode's White_Space property has it (25 code
  points), and text without the white space at its ends.
-/

namespace Micro80.Text

def blankRanges : List (Nat × Nat) :=
  [(0x0009, 0x000D), (0x0020, 0x0020), (0x0085, 0x0085), (0x00A0, 0x00A0), (0x1680, 0x1680),
   (0x2000, 0x200A), (0x2028, 0x2029), (0x202F, 0x202F), (0x205F, 0x205F), (0x3000, 0x3000)]

def isBlank (c : Char) : Bool := blankRanges.any fun (low, high) => low ≤ c.toNat && c.toNat ≤ high

def trimStart (cs : List Char) : List Char := cs.dropWhile isBlank

def trim (cs : List Char) : List Char := (trimStart (trimStart cs).reverse).reverse

/-- The pieces of a text between occurrences of `mark`: one more than there are marks. -/
def pieces (mark : Char) : List Char → List (List Char)
  | [] => [[]]
  | c :: rest =>
    if c = mark then [] :: pieces mark rest
    else match pieces mark rest with
      | [] => [[c]]
      | piece :: more => (c :: piece) :: more

theorem length_pieces (mark : Char) (cs : List Char) : (pieces mark cs).length = cs.count mark + 1 := by
  induction cs with
  | nil => rfl
  | cons c rest ih =>
    simp only [pieces]
    split
    · next h => simp [h, ih]
    · next h =>
      have hc : (c :: rest).count mark = rest.count mark := by simp [h]
      rw [hc, ← ih]
      split
      · next hp => rw [hp] at ih; simp at ih
      · next hp => rw [hp]; simp

end Micro80.Text
