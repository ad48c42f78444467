/-
  Micro80.Snapshot — dialects, flags and register files as data of any interchange. A register
  file is a record with a field for each register; flags are a text of the names of their bits; a
  dialect is its name.

  `toValue` and `ofValue?` are these on values.
-/

import Micro80.Instruction.Dialect
import Micro80.Snapshot.Plain
import Micro80.State.Registers

namespace Micro80

open Snapshot (Interchange FlagText Value plain barred)

variable {V : Type}

namespace Dialect

def names : List String := [z80.name, i8080.name]

def ofName? : String → Option Dialect
  | "z80" => some z80
  | "8080" => some i8080
  | _ => none

def save (io : Interchange V) (d : Dialect) : V := io.ofVariant d.name

def restore? (io : Interchange V) (v : V) : Option Dialect := io.variant? names v >>= ofName?

def toValue (d : Dialect) : Value := d.save plain

def ofValue? (v : Value) : Option Dialect := restore? plain v

end Dialect

namespace Flags

/-- The bits from the top, each with its name. -/
def declared : List (String × Byte) :=
  [("S", 0x80), ("Z", 0x40), ("Y", 0x20), ("H", 0x10), ("X", 0x08), ("PV", 0x04), ("N", 0x02), ("C", 0x01)]

def save (io : Interchange V) (t : FlagText) (f : Flags) : V := io.ofText (t.write declared f.toByte)

def restore? (io : Interchange V) (t : FlagText) (v : V) : Option Flags :=
  (io.text? v >>= t.read? declared).map ofByte

def toValue (f : Flags) : Value := f.save plain barred

def ofValue? (v : Value) : Option Flags := restore? plain barred v

end Flags

namespace Registers

def fieldNames : List String :=
  ["a", "f", "b", "c", "d", "e", "h", "l", "af_alt", "bc_alt", "de_alt", "hl_alt", "ix", "iy", "sp", "pc", "i", "r",
    "iff1", "iff2", "im"]

def fields (io : Interchange V) (t : FlagText) (r : Registers) : List (String × V) :=
  [("a", io.ofByte r.a), ("f", r.f.save io t), ("b", io.ofByte r.b), ("c", io.ofByte r.c), ("d", io.ofByte r.d),
   ("e", io.ofByte r.e), ("h", io.ofByte r.h), ("l", io.ofByte r.l), ("af_alt", io.ofWord r.afAlt),
   ("bc_alt", io.ofWord r.bcAlt), ("de_alt", io.ofWord r.deAlt), ("hl_alt", io.ofWord r.hlAlt),
   ("ix", io.ofWord r.ix), ("iy", io.ofWord r.iy), ("sp", io.ofWord r.sp), ("pc", io.ofWord r.pc),
   ("i", io.ofByte r.i), ("r", io.ofByte r.r), ("iff1", io.ofBool r.iff1), ("iff2", io.ofBool r.iff2),
   ("im", io.ofByte r.im)]

theorem map_fields (io : Interchange V) (t : FlagText) (r : Registers) : (r.fields io t).map (·.1) = fieldNames := rfl

def ofFields? (io : Interchange V) (t : FlagText) : List V → Option Registers
  | [a, f, b, c, d, e, h, l, afAlt, bcAlt, deAlt, hlAlt, ix, iy, sp, pc, i, r, iff1, iff2, im] => do
    return {
      a := ← io.byte? a
      f := ← Flags.restore? io t f
      b := ← io.byte? b
      c := ← io.byte? c
      d := ← io.byte? d
      e := ← io.byte? e
      h := ← io.byte? h
      l := ← io.byte? l
      afAlt := ← io.word? afAlt
      bcAlt := ← io.word? bcAlt
      deAlt := ← io.word? deAlt
      hlAlt := ← io.word? hlAlt
      ix := ← io.word? ix
      iy := ← io.word? iy
      sp := ← io.word? sp
      pc := ← io.word? pc
      i := ← io.byte? i
      r := ← io.byte? r
      iff1 := ← io.bool? iff1
      iff2 := ← io.bool? iff2
      im := ← io.byte? im }
  | _ => none

def save (io : Interchange V) (t : FlagText) (r : Registers) : V := io.ofFields (r.fields io t)

def restore? (io : Interchange V) (t : FlagText) (v : V) : Option Registers :=
  io.fields? fieldNames v >>= ofFields? io t

def toValue (r : Registers) : Value := r.save plain barred

def ofValue? (v : Value) : Option Registers := restore? plain barred v

end Registers

end Micro80
