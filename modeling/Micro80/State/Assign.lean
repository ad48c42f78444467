/-
  Micro80.State.Assign — setting registers by name: every register, the main pairs under
  the names of both their bytes, and the flip-flops, which are set by anything but zero.
-/

import Micro80.State.Registers

namespace Micro80.Registers

def assign? (r : Registers) (name : String) (value : Nat) : Option Registers :=
  let byte := BitVec.ofNat 8 value
  let word := BitVec.ofNat 16 value
  match name with
  | "a" => some { r with a := byte }
  | "f" => some { r with f := Flags.ofByte byte }
  | "b" => some { r with b := byte }
  | "c" => some { r with c := byte }
  | "d" => some { r with d := byte }
  | "e" => some { r with e := byte }
  | "h" => some { r with h := byte }
  | "l" => some { r with l := byte }
  | "af" => some (r.setAf word)
  | "bc" => some (r.setBc word)
  | "de" => some (r.setDe word)
  | "hl" => some (r.setHl word)
  | "af_alt" => some { r with afAlt := word }
  | "bc_alt" => some { r with bcAlt := word }
  | "de_alt" => some { r with deAlt := word }
  | "hl_alt" => some { r with hlAlt := word }
  | "ix" => some { r with ix := word }
  | "iy" => some { r with iy := word }
  | "sp" => some { r with sp := word }
  | "pc" => some { r with pc := word }
  | "i" => some { r with i := byte }
  | "r" => some { r with r := byte }
  | "iff1" => some { r with iff1 := value != 0 }
  | "iff2" => some { r with iff2 := value != 0 }
  | "im" => some { r with im := byte }
  | _ => none

end Micro80.Registers
