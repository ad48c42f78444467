/-
  Micro80.Encoding.Supplement — the page of what the larger dialect adds elsewhere:
  devices by register, sums of pairs with carry, interrupt control, digit rotation, and
  the block instructions.
-/

import Micro80.Encoding.Name

namespace Micro80.Encoding

open Descriptor (zilogOnly)
open Operand (register memoryAt absolute)

def modeColumn (y : BitVec 3) : Slot :=
  match y with
  | 0 => .instruction (zilogOnly "im" (register "0") .none 2 8 (.setInterruptMode 0))
  | 2 => .instruction (zilogOnly "im" (register "1") .none 2 8 (.setInterruptMode 1))
  | 3 => .instruction (zilogOnly "im" (register "2") .none 2 8 (.setInterruptMode 2))
  | _ => .vacant

def specialColumn (y : BitVec 3) : Slot :=
  match y with
  | 0 => .instruction (zilogOnly "ld" (register "i") (register "a") 2 9 .storeInterruptPage)
  | 1 => .instruction (zilogOnly "ld" (register "r") (register "a") 2 9 .storeRefresh)
  | 2 => .instruction (zilogOnly "ld" (register "a") (register "i") 2 9 .fetchInterruptPage)
  | 3 => .instruction (zilogOnly "ld" (register "a") (register "r") 2 9 .fetchRefresh)
  | 4 => .instruction (zilogOnly "rrd" .none .none 2 18 .rotateDigitsRight)
  | 5 => .instruction (zilogOnly "rld" .none .none 2 18 .rotateDigitsLeft)
  | _ => .vacant

/-- The second quarter. The memory rows of the device columns are not instructions. -/
def supplementMoves (y z : BitVec 3) : Slot :=
  let p := Pair.ofCode (pairBits y)
  match z with
  | 0 => match Place.ofCode y with
    | .reg r => .instruction (zilogOnly "in" (register (regName r)) (memoryAt "c") 2 12 (.input r))
    | .cell => .vacant
  | 1 => match Place.ofCode y with
    | .reg r => .instruction (zilogOnly "out" (memoryAt "c") (register (regName r)) 2 12 (.output r))
    | .cell => .vacant
  | 2 => .instruction (if y.getLsbD 0
      then zilogOnly "adc" (register "hl") (pairOperand "hl" p) 2 15 (.addPairCarry p)
      else zilogOnly "sbc" (register "hl") (pairOperand "hl" p) 2 15 (.subtractPairCarry p))
  | 3 => .instruction (if y.getLsbD 0
      then zilogOnly "ld" (pairOperand "hl" p) absolute 4 20 (.fetchPairAbsolute p)
      else zilogOnly "ld" absolute (pairOperand "hl" p) 4 20 (.storePairAbsolute p))
  | 4 => match y with
    | 0 => .instruction (zilogOnly "neg" .none .none 2 8 (.adjust .neg))
    | _ => .vacant
  | 5 => match y with
    | 0 => .instruction (zilogOnly "retn" .none .none 2 14 .retInterrupt)
    | 1 => .instruction (zilogOnly "reti" .none .none 2 14 .retInterrupt)
    | _ => .vacant
  | 6 => modeColumn y
  | 7 => specialColumn y

def blockDescriptor (mnemonic : String) (block : Block) (action : Block → Action) : Descriptor :=
  if block.repeats then (zilogOnly mnemonic .none .none 2 21 (action block)).skipping 16
  else zilogOnly mnemonic .none .none 2 16 (action block)

/-- The third quarter: bit 3 of the opcode walks downward, bit 4 repeats. -/
def blocks (y z : BitVec 3) : Slot :=
  match z, y with
  | 0, 4 => .instruction (blockDescriptor "ldi" ⟨false, false⟩ .copyBlock)
  | 0, 5 => .instruction (blockDescriptor "ldd" ⟨true, false⟩ .copyBlock)
  | 0, 6 => .instruction (blockDescriptor "ldir" ⟨false, true⟩ .copyBlock)
  | 0, 7 => .instruction (blockDescriptor "lddr" ⟨true, true⟩ .copyBlock)
  | 1, 4 => .instruction (blockDescriptor "cpi" ⟨false, false⟩ .searchBlock)
  | 1, 5 => .instruction (blockDescriptor "cpd" ⟨true, false⟩ .searchBlock)
  | 1, 6 => .instruction (blockDescriptor "cpir" ⟨false, true⟩ .searchBlock)
  | 1, 7 => .instruction (blockDescriptor "cpdr" ⟨true, true⟩ .searchBlock)
  | _, _ => .vacant

def supplement (opcode : Byte) : Slot :=
  let y := upper opcode
  let z := lower opcode
  match quarter opcode with
  | 1 => supplementMoves y z
  | 2 => blocks y z
  | _ => .vacant

end Micro80.Encoding
