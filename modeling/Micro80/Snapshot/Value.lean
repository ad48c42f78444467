/-
  Micro80.Snapshot.Value — structured data as an interchange format carries it. Numbers
  that are not written as plain digits stay apart: no field of a snapshot takes them.
-/

import Micro80.Word

namespace Micro80.Snapshot

inductive Value where
  | null
  | bool (b : Bool)
  | natural (n : Nat)
  /-- A number with a sign, a fraction or an exponent, as it is written. -/
  | number (text : String)
  | text (s : String)
  | list (items : List Value)
  | object (entries : List (String × Value))
  deriving Inhabited

namespace Value

def field? (v : Value) (name : String) : Option Value :=
  match v with
  | object entries => entries.lookup name
  | _ => none

def text? : Value → Option String
  | text s => some s
  | _ => none

def bool? : Value → Option Bool
  | bool b => some b
  | _ => none

def bits? (w : Nat) : Value → Option (BitVec w)
  | natural n => if (BitVec.ofNat w n).toNat = n then some (BitVec.ofNat w n) else none
  | _ => none

def ofBits {w : Nat} (b : BitVec w) : Value := natural b.toNat

end Value

end Micro80.Snapshot
