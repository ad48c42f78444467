/-
  Micro80.Alu.Wide — sums and differences of words. Half carry is the carry out of bit
  11.
-/

import Micro80.State.Flags

namespace Micro80.Alu

/-- `a + b`; sign, zero and overflow keep their values. -/
def addWord (f : Flags) (a b : Word) : Word × Flags :=
  (a + b, { f with
    h := 4095 < a.toNat % 4096 + b.toNat % 4096
    n := false
    c := 65535 < a.toNat + b.toNat })

def adcWord (f : Flags) (a b : Word) : Word × Flags :=
  let r := a + b + BitVec.ofNat 16 f.c.toNat
  (r, { f with
    s := r.msb
    z := r == 0
    h := 4095 < a.toNat % 4096 + b.toNat % 4096 + f.c.toNat
    pv := a.msb == b.msb && a.msb != r.msb
    n := false
    c := 65535 < a.toNat + b.toNat + f.c.toNat })

def sbcWord (f : Flags) (a b : Word) : Word × Flags :=
  let r := a - b - BitVec.ofNat 16 f.c.toNat
  (r, { f with
    s := r.msb
    z := r == 0
    h := a.toNat % 4096 < b.toNat % 4096 + f.c.toNat
    pv := a.msb != b.msb && a.msb != r.msb
    n := true
    c := a.toNat < b.toNat + f.c.toNat })

/-! ## Numbers -/

theorem toNat_adcWord (f : Flags) (a b : Word) :
    (adcWord f a b).1.toNat = (a.toNat + b.toNat + f.c.toNat) % 65536 := by
  simp only [adcWord, BitVec.toNat_add, BitVec.toNat_ofNat]
  omega

theorem toNat_sbcWord (f : Flags) (a b : Word) :
    (sbcWord f a b).1.toNat = (a.toNat + 65536 - (b.toNat + f.c.toNat)) % 65536 := by
  have hb := b.isLt
  have hborrow : f.c.toNat ≤ 1 := Bool.toNat_le _
  simp only [sbcWord, BitVec.toNat_sub, BitVec.toNat_ofNat]
  omega

end Micro80.Alu
