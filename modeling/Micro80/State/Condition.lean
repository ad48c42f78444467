/-
  Micro80.State.Condition — the eight conditions that a branch can have: each a flag,
  set or clear.
-/

import Micro80.State.Flags

namespace Micro80

inductive Condition where
  | nz | z | nc | c | po | pe | p | m
  deriving DecidableEq, Repr

namespace Condition

def ofCode : BitVec 3 → Condition
  | 0 => nz | 1 => z | 2 => nc | 3 => c | 4 => po | 5 => pe | 6 => p | 7 => m

def holds (f : Flags) : Condition → Bool
  | nz => !f.z
  | z => f.z
  | nc => !f.c
  | c => f.c
  | po => !f.pv
  | pe => f.pv
  | p => !f.s
  | m => f.s

end Condition

end Micro80
