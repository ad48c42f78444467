/-
  Micro80.Host.Processor — a processor as its host sees it: one instruction at a step, a
  reason when a step stops, and the state to look at in between. `run` goes on to the
  first stop or until a given number of steps is used up.
-/

import Micro80.Word

namespace Micro80

class Processor (κ : Type) where
  Registers : Type
  Stop : Type
  step : κ → Option Stop × κ
  reset : κ → (cold : Bool) → κ
  pc : κ → Word
  registers : κ → Registers
  cycles : κ → Nat

namespace Processor

variable {κ : Type} [Processor κ]

/-- A run that has ended: how many steps it took, the one that stopped it included, and the
    stop, unless the steps were used up. -/
structure Run (κ : Type) [Processor κ] where
  count : Nat
  stop : Option (Stop κ)
  final : κ

def runFrom (taken : Nat) : Nat → κ → Run κ
  | 0, c => ⟨taken, none, c⟩
  | limit + 1, c =>
    match step c with
    | (none, c) => runFrom (taken + 1) limit c
    | (some stop, c) => ⟨taken + 1, some stop, c⟩

def run (limit : Nat) (c : κ) : Run κ := runFrom 0 limit c

end Processor

end Micro80
