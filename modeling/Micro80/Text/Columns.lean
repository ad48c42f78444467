/-
  Micro80.Text.Columns — the register file on one line of fixed columns: the pairs, the
  index registers, program counter and stack pointer in hexadecimal, then a column for
  each flag.
-/

import Micro80.State.Registers
import Micro80.Text.Hex

namespace Micro80

namespace Flags

/-- Bit 7 first: a letter or a dash for the six flags in use, a digit for the other two. -/
def columns (f : Flags) : List Char :=
  [if f.s then 'S' else '-', if f.z then 'Z' else '-', if f.y then '1' else '0', if f.h then 'H' else '-',
   if f.x then '1' else '0', if f.pv then 'P' else '-', if f.n then 'N' else '-', if f.c then 'C' else '-']

def letters (f : Flags) : String := String.ofList f.columns

end Flags

namespace Registers

def field (name : String) (w : Word) : String := name ++ " $" ++ Text.Hex.word w

def dump (r : Registers) : String :=
  " ".intercalate
    [field "af" r.af, field "bc" r.bc, field "de" r.de, field "hl" r.hl,
     field "ix" r.ix, field "iy" r.iy, field "pc" r.pc, field "sp" r.sp, "f " ++ r.f.letters]

end Registers

end Micro80
