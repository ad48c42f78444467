/-
  Micro80.Encoding.Index — the page behind the two lead bytes that stand for an index
  register. It holds the instructions of the base page that mention HL, with the index
  register in its place; a memory operand gains a displacement byte. The page is the
  same for either register but for the name.
-/

import Micro80.Encoding.Name

namespace Micro80.Encoding

open Descriptor (zilogOnly)
open Operand (register memoryAt immediate immediateWord absolute)

def indexFirstQuarter (name : String) (y z : BitVec 3) : Slot :=
  match z, y with
  | 1, 4 => .instruction (zilogOnly "ld" (register name) immediateWord 4 14 (.loadPairImmediate .hl))
  | 1, 1 | 1, 3 | 1, 5 | 1, 7 =>
    let p := Pair.ofCode (pairBits y)
    .instruction (zilogOnly "add" (register name) (pairOperand name p) 2 15 (.addPair p))
  | 2, 4 => .instruction (zilogOnly "ld" absolute (register name) 4 20 (.storePairAbsolute .hl))
  | 2, 5 => .instruction (zilogOnly "ld" (register name) absolute 4 20 (.fetchPairAbsolute .hl))
  | 3, 4 => .instruction (zilogOnly "inc" (register name) .none 2 10 (.incrementPair .hl))
  | 3, 5 => .instruction (zilogOnly "dec" (register name) .none 2 10 (.decrementPair .hl))
  | 4, 6 => .instruction (zilogOnly "inc" (.indexed name) .none 3 23 (.increment .cell))
  | 5, 6 => .instruction (zilogOnly "dec" (.indexed name) .none 3 23 (.decrement .cell))
  | 6, 6 => .instruction (zilogOnly "ld" (.indexed name) immediate 4 19 (.loadImmediate .cell))
  | _, _ => .vacant

/-- Moves to or from memory. H and L stay H and L. -/
def indexMoves (name : String) (y z : BitVec 3) : Slot :=
  match Place.ofCode y, Place.ofCode z with
  | .reg r, .cell =>
    .instruction (zilogOnly "ld" (register (regName r)) (.indexed name) 3 19 (.load (.reg r) .cell))
  | .cell, .reg r =>
    .instruction (zilogOnly "ld" (.indexed name) (register (regName r)) 3 19 (.load .cell (.reg r)))
  | _, _ => .vacant

def indexCombinations (name : String) (y z : BitVec 3) : Slot :=
  match Place.ofCode z with
  | .cell =>
    let op := AluOp.ofCode y
    .instruction (zilogOnly (aluName op) (aluDestination y) (.indexed name) 3 19 (.combine op .cell))
  | .reg _ => .vacant

def indexLastQuarter (name : String) (y z : BitVec 3) : Slot :=
  match z, y with
  | 1, 4 => .instruction (zilogOnly "pop" (register name) .none 2 14 (.pop .hl))
  | 1, 5 => .instruction (zilogOnly "jp" (memoryAt name) .none 2 8 .jumpPointer)
  | 1, 7 => .instruction (zilogOnly "ld" (register "sp") (register name) 2 10 .loadStackPointer)
  | 3, 4 => .instruction (zilogOnly "ex" (memoryAt "sp") (register name) 2 23 .exchangeStack)
  | 5, 4 => .instruction (zilogOnly "push" (register name) .none 2 15 (.push .hl))
  | _, _ => .vacant

def index (name : String) (opcode : Byte) : Slot :=
  let y := upper opcode
  let z := lower opcode
  match quarter opcode with
  | 0 => indexFirstQuarter name y z
  | 1 => indexMoves name y z
  | 2 => indexCombinations name y z
  | 3 => indexLastQuarter name y z

end Micro80.Encoding
