/-
  Micro80.Snapshot.Plain — an interchange whose data are values (`plain`), and flags as names with
  bars between them (`barred`). A record may also be the list of its fields, and one of several
  names may also be an object with the one entry of that name.
-/

import Micro80.Snapshot.Interchange
import Micro80.Snapshot.Value

namespace Micro80.Snapshot

namespace Plain

def fields? (declared : List String) : Value → Option (List Value)
  | .object entries =>
    if ((own declared entries).map (·.1)).Nodup then declared.mapM fun name => entries.lookup name else none
  | .list items => if items.length = declared.length then some items else none
  | _ => none

def variant? (names : List String) : Value → Option String
  | .text name => if names.contains name then some name else none
  | .object [(name, .null)] => if names.contains name then some name else none
  | _ => none

end Plain

def plain : Interchange Value where
  ofByte := .ofBits
  byte? := Value.bits? 8
  ofWord := .ofBits
  word? := Value.bits? 16
  ofBool := .bool
  bool? := Value.bool?
  ofText := .text
  text? := Value.text?
  object := .object
  ofFields := .object
  fields? := Plain.fields?
  ofVariant := .text
  variant? := Plain.variant?

namespace Barred

/-- A plus sign may stand before the digits. -/
def number? (digits : List Char) : Option Byte := do
  let n ← Text.Hex.number? (if digits.head? = some '+' then digits.tail else digits)
  if n < 256 then some (BitVec.ofNat 8 n) else none

def piece? (declared : List (String × Byte)) (piece : String) : Option Byte :=
  match piece.toList with
  | '0' :: 'x' :: digits => number? digits
  | _ => declared.lookup piece

def read? (declared : List (String × Byte)) (text : String) : Option Byte :=
  if (Text.trim text.toList).isEmpty then some 0
  else (Text.pieces '|' text.toList).foldlM
    (fun b piece => (piece? declared (String.ofList (Text.trim piece))).map (b ||| ·)) 0

end Barred

def barred : FlagText where
  write declared b := " | ".intercalate (FlagText.setNames declared b)
  piece? := Barred.piece?
  read? := Barred.read?

end Micro80.Snapshot
