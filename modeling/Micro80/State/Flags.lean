/-
  Micro80.State.Flags — the flag register, one field a bit: sign, zero, the unused bits
  5 (`y`) and 3 (`x`), half carry, parity/overflow, subtract, carry. Only a transfer of
  the whole register changes the unused bits.

  The byte form loses nothing (`ofByte_toByte`, `toByte_ofByte`).
-/

import Micro80.Word

namespace Micro80

structure Flags where
  s : Bool := false
  z : Bool := false
  y : Bool := false
  h : Bool := false
  x : Bool := false
  pv : Bool := false
  n : Bool := false
  c : Bool := false
  deriving DecidableEq, Repr

namespace Flags

def ofByte (b : Byte) : Flags :=
  ⟨b.getLsbD 7, b.getLsbD 6, b.getLsbD 5, b.getLsbD 4, b.getLsbD 3, b.getLsbD 2, b.getLsbD 1, b.getLsbD 0⟩

def toByte (f : Flags) : Byte :=
  BitVec.ofBool f.s ++ BitVec.ofBool f.z ++ BitVec.ofBool f.y ++ BitVec.ofBool f.h ++
    BitVec.ofBool f.x ++ BitVec.ofBool f.pv ++ BitVec.ofBool f.n ++ BitVec.ofBool f.c

@[simp] theorem ofByte_toByte (f : Flags) : ofByte f.toByte = f := by
  obtain ⟨s, z, y, h, x, pv, n, c⟩ := f
  cases s <;> cases z <;> cases y <;> cases h <;> cases x <;> cases pv <;> cases n <;> cases c <;> rfl

theorem toByte_inj {f g : Flags} : f.toByte = g.toByte ↔ f = g := by
  constructor
  · intro h
    rw [← ofByte_toByte f, h, ofByte_toByte]
  · rintro rfl
    rfl

@[simp] theorem toByte_ofByte (b : Byte) : (ofByte b).toByte = b := by
  revert b; decide

/-! ## Judging a result -/

def evenParity (b : Byte) : Bool := (List.range 8).countP b.getLsbD % 2 == 0

def judgeSign (f : Flags) (result : Byte) : Flags := { f with s := result.msb }

def judgeZero (f : Flags) (result : Byte) : Flags := { f with z := result == 0 }

def judge (f : Flags) (result : Byte) : Flags := { f with s := result.msb, z := result == 0 }

def judgeParity (f : Flags) (result : Byte) : Flags :=
  { f with s := result.msb, z := result == 0, pv := evenParity result }

/-- Half carry from the addition of two bytes: their low digits sum past 15. -/
def judgeHalfCarry (f : Flags) (a b : Byte) : Flags := { f with h := 15 < a.toNat % 16 + b.toNat % 16 }

/-- A byte loaded from outside the register file: sign and zero from it, no half carry, no subtraction. -/
def judgeLoad (f : Flags) (value : Byte) : Flags := { f.judge value with h := false, n := false }

def judgeInput (f : Flags) (value : Byte) : Flags := { f.judgeLoad value with pv := evenParity value }

end Flags

end Micro80
