/-
  Micro80.Alu.Byte — byte arithmetic and logic with their flags. Every operation takes
  the flags before it and gives its result with the flags after it; a flag that it does
  not mention keeps its value. Carries and half carries are stated on the numbers the
  operands stand for, overflow on the signs.
-/

import Micro80.State.Flags

namespace Micro80.Alu

def inc (f : Flags) (a : Byte) : Byte × Flags :=
  let r := a + 1
  (r, { (f.judge r).judgeHalfCarry a 1 with pv := a == 0x7F, n := false })

def dec (f : Flags) (a : Byte) : Byte × Flags :=
  let r := a - 1
  (r, { f.judge r with h := a.toNat % 16 = 0, pv := a == 0x80, n := true })

/-- `a + b + carry`. Overflow: the operands agree in sign and the result does not. -/
def add (f : Flags) (a b : Byte) (carry : Bool) : Byte × Flags :=
  let r := a + b + BitVec.ofNat 8 carry.toNat
  (r, { f.judge r with
    h := 15 < a.toNat % 16 + b.toNat % 16 + carry.toNat
    pv := a.msb == b.msb && a.msb != r.msb
    n := false
    c := 255 < a.toNat + b.toNat + carry.toNat })

/-- `a - b - borrow`. Overflow: the operands differ in sign and the result differs from `a`. -/
def sub (f : Flags) (a b : Byte) (borrow : Bool) : Byte × Flags :=
  let r := a - b - BitVec.ofNat 8 borrow.toNat
  (r, { f.judge r with
    h := a.toNat % 16 < b.toNat % 16 + borrow.toNat
    pv := a.msb != b.msb && a.msb != r.msb
    n := true
    c := a.toNat < b.toNat + borrow.toNat })

def and (f : Flags) (a b : Byte) : Byte × Flags :=
  (a &&& b, { f.judgeParity (a &&& b) with h := true, n := false, c := false })

def xor (f : Flags) (a b : Byte) : Byte × Flags :=
  (a ^^^ b, { f.judgeParity (a ^^^ b) with h := false, n := false, c := false })

def or (f : Flags) (a b : Byte) : Byte × Flags :=
  (a ||| b, { f.judgeParity (a ||| b) with h := false, n := false, c := false })

def neg (f : Flags) (a : Byte) : Byte × Flags :=
  (-a, { f.judge (-a) with h := a.toNat % 16 ≠ 0, pv := a == 0x80, n := true, c := a ≠ 0 })

def cpl (f : Flags) (a : Byte) : Byte × Flags := (~~~a, { f with h := true, n := true })

def scf (f : Flags) : Flags := { f with h := false, n := false, c := true }

def ccf (f : Flags) : Flags := { f with h := f.c, n := false, c := !f.c }

/-! ## Numbers -/

theorem toNat_add (f : Flags) (a b : Byte) (carry : Bool) :
    (add f a b carry).1.toNat = (a.toNat + b.toNat + carry.toNat) % 256 := by
  simp only [add, BitVec.toNat_add, BitVec.toNat_ofNat]
  omega

theorem toNat_sub (f : Flags) (a b : Byte) (borrow : Bool) :
    (sub f a b borrow).1.toNat = (a.toNat + 256 - (b.toNat + borrow.toNat)) % 256 := by
  have hb := b.isLt
  have hborrow : borrow.toNat ≤ 1 := Bool.toNat_le _
  simp only [sub, BitVec.toNat_sub, BitVec.toNat_ofNat]
  omega

theorem carry_add (f : Flags) (a b : Byte) (carry : Bool) :
    (add f a b carry).2.c.toNat = (a.toNat + b.toNat + carry.toNat) / 256 := by
  have ha := a.isLt
  have hb := b.isLt
  have hcarry : carry.toNat ≤ 1 := Bool.toNat_le _
  have hc : (add f a b carry).2.c.toNat = if 255 < a.toNat + b.toNat + carry.toNat then 1 else 0 := Bool.cond_decide ..
  rw [hc]
  split <;> omega

theorem borrow_sub (f : Flags) (a b : Byte) (borrow : Bool) :
    (sub f a b borrow).2.c.toNat = if a.toNat < b.toNat + borrow.toNat then 1 else 0 := Bool.cond_decide ..

end Micro80.Alu
