/-
  Micro80.Alu.Rotation — rotations of the accumulator by one bit, within the byte or
  through the carry. The carry takes the bit that leaves; half carry and subtract are
  cleared and nothing else changes.
-/

import Micro80.State.Flags

namespace Micro80.Alu

def rlca (f : Flags) (a : Byte) : Byte × Flags :=
  (a.rotateLeft 1, { f with h := false, n := false, c := a.msb })

def rrca (f : Flags) (a : Byte) : Byte × Flags :=
  (a.rotateRight 1, { f with h := false, n := false, c := a.getLsbD 0 })

def rla (f : Flags) (a : Byte) : Byte × Flags :=
  (a <<< 1 ||| BitVec.ofNat 8 f.c.toNat, { f with h := false, n := false, c := a.msb })

def rra (f : Flags) (a : Byte) : Byte × Flags :=
  (a >>> 1 ||| BitVec.ofNat 8 (128 * f.c.toNat), { f with h := false, n := false, c := a.getLsbD 0 })

end Micro80.Alu
