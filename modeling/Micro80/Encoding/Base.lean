/-
  Micro80.Encoding.Base — the page of the first opcode byte, most of it shared by both
  dialects. The top two bits of the opcode divide it into quarters: everyday
  instructions in columns, byte moves, operations on the accumulator, and transfers of
  control with the stack.
-/

import Micro80.Encoding.Name

namespace Micro80.Encoding

open Descriptor (zilogOnly)
open Operand (register memoryAt immediate immediateWord port absolute relative)

/-! ## Opcodes 00 to 3F -/

def stepCycles : Place → Nat
  | .cell => 11
  | .reg _ => 4

def loadImmediateCycles : Place → Nat
  | .cell => 10
  | .reg _ => 7

def relativeColumn (y : BitVec 3) : Descriptor :=
  match y with
  | 0 => (zilogOnly "nop" .none .none 1 4 .nop).orIntel "nop" "" ""
  | 1 => zilogOnly "ex" (register "af") (register "af'") 1 4 .exchangeAf
  | 2 => (zilogOnly "djnz" relative .none 2 13 .countDown).skipping 8
  | 3 => zilogOnly "jr" relative .none 2 12 .jumpRelative
  | _ =>
    let cc := Condition.ofCode (y &&& 3)
    (zilogOnly "jr" (conditionOperand cc) relative 2 12 (.jumpRelativeIf cc)).skipping 7

def pairColumn (y : BitVec 3) : Descriptor :=
  let p := Pair.ofCode (pairBits y)
  if y.getLsbD 0 then
    (zilogOnly "add" (register "hl") (pairOperand "hl" p) 1 11 (.addPair p)).orIntel "dad" "" (pairIntel p)
  else
    (zilogOnly "ld" (pairOperand "hl" p) immediateWord 3 10 (.loadPairImmediate p)).orIntel "lxi" (pairIntel p) ""

def memoryColumn (y : BitVec 3) : Descriptor :=
  match y with
  | 0 => (zilogOnly "ld" (memoryAt "bc") (register "a") 1 7 (.storeIndirect .bc)).orIntel "stax" "b" ""
  | 1 => (zilogOnly "ld" (register "a") (memoryAt "bc") 1 7 (.fetchIndirect .bc)).orIntel "ldax" "" "b"
  | 2 => (zilogOnly "ld" (memoryAt "de") (register "a") 1 7 (.storeIndirect .de)).orIntel "stax" "d" ""
  | 3 => (zilogOnly "ld" (register "a") (memoryAt "de") 1 7 (.fetchIndirect .de)).orIntel "ldax" "" "d"
  | 4 => (zilogOnly "ld" absolute (register "hl") 3 16 (.storePairAbsolute .hl)).orIntel "shld" "" ""
  | 5 => (zilogOnly "ld" (register "hl") absolute 3 16 (.fetchPairAbsolute .hl)).orIntel "lhld" "" ""
  | 6 => (zilogOnly "ld" absolute (register "a") 3 13 .storeAbsolute).orIntel "sta" "" ""
  | 7 => (zilogOnly "ld" (register "a") absolute 3 13 .fetchAbsolute).orIntel "lda" "" ""

def pairStepColumn (y : BitVec 3) : Descriptor :=
  let p := Pair.ofCode (pairBits y)
  if y.getLsbD 0 then
    (zilogOnly "dec" (pairOperand "hl" p) .none 1 6 (.decrementPair p)).orIntel "dcx" (pairIntel p) ""
  else
    (zilogOnly "inc" (pairOperand "hl" p) .none 1 6 (.incrementPair p)).orIntel "inx" (pairIntel p) ""

def accumulatorColumn (y : BitVec 3) : Descriptor :=
  match y with
  | 0 => (zilogOnly "rlca" .none .none 1 4 (.adjust .rlca)).orIntel "rlc" "" ""
  | 1 => (zilogOnly "rrca" .none .none 1 4 (.adjust .rrca)).orIntel "rrc" "" ""
  | 2 => (zilogOnly "rla" .none .none 1 4 (.adjust .rla)).orIntel "ral" "" ""
  | 3 => (zilogOnly "rra" .none .none 1 4 (.adjust .rra)).orIntel "rar" "" ""
  | 4 => (zilogOnly "daa" .none .none 1 4 (.adjust .daa)).orIntel "daa" "" ""
  | 5 => (zilogOnly "cpl" .none .none 1 4 (.adjust .cpl)).orIntel "cma" "" ""
  | 6 => (zilogOnly "scf" .none .none 1 4 .setCarry).orIntel "stc" "" ""
  | 7 => (zilogOnly "ccf" .none .none 1 4 .complementCarry).orIntel "cmc" "" ""

def firstQuarter (y z : BitVec 3) : Descriptor :=
  let place := Place.ofCode y
  match z with
  | 0 => relativeColumn y
  | 1 => pairColumn y
  | 2 => memoryColumn y
  | 3 => pairStepColumn y
  | 4 => (zilogOnly "inc" (placeOperand place) .none 1 (stepCycles place) (.increment place)).orIntel
      "inr" (placeIntel place) ""
  | 5 => (zilogOnly "dec" (placeOperand place) .none 1 (stepCycles place) (.decrement place)).orIntel
      "dcr" (placeIntel place) ""
  | 6 => (zilogOnly "ld" (placeOperand place) immediate 2 (loadImmediateCycles place) (.loadImmediate place)).orIntel
      "mvi" (placeIntel place) ""
  | 7 => accumulatorColumn y

/-! ## Opcodes 40 to BF -/

/-- Moves between byte operands; where both would be memory, the halt. -/
def moves (y z : BitVec 3) : Descriptor :=
  match Place.ofCode y, Place.ofCode z with
  | .cell, .cell => (zilogOnly "halt" .none .none 1 4 .halt).orIntel "hlt" "" ""
  | dst, src =>
    (zilogOnly "ld" (placeOperand dst) (placeOperand src) 1 (if dst = .cell ∨ src = .cell then 7 else 4)
      (.load dst src)).orIntel "mov" (placeIntel dst) (placeIntel src)

def combinations (y z : BitVec 3) : Descriptor :=
  let op := AluOp.ofCode y
  let src := Place.ofCode z
  (zilogOnly (aluName op) (aluDestination y) (placeOperand src) 1 (if src = .cell then 7 else 4)
    (.combine op src)).orIntel (aluIntel op) "" (placeIntel src)

/-! ## Opcodes C0 to FF -/

def popColumn (y : BitVec 3) : Descriptor :=
  match y with
  | 1 => (zilogOnly "ret" .none .none 1 10 .ret).orIntel "ret" "" ""
  | 3 => zilogOnly "exx" .none .none 1 4 .exchangeMain
  | 5 => (zilogOnly "jp" (memoryAt "hl") .none 1 4 .jumpPointer).orIntel "pchl" "" ""
  | 7 => (zilogOnly "ld" (register "sp") (register "hl") 1 6 .loadStackPointer).orIntel "sphl" "" ""
  | _ =>
    let p := Pair.ofStackCode (pairBits y)
    (zilogOnly "pop" (pairOperand "hl" p) .none 1 10 (.pop p)).orIntel "pop" (pairIntel p) ""

def deviceColumn (y : BitVec 3) : Slot :=
  match y with
  | 0 => .instruction ((zilogOnly "jp" immediateWord .none 3 10 .jump).orIntel "jmp" "" "")
  | 1 => .vacant
  | 2 => .instruction ((zilogOnly "out" port (register "a") 2 11 .outputImmediate).orIntel "out" "" "")
  | 3 => .instruction ((zilogOnly "in" (register "a") port 2 11 .inputImmediate).orIntel "in" "" "")
  | 4 => .instruction ((zilogOnly "ex" (memoryAt "sp") (register "hl") 1 19 .exchangeStack).orIntel "xthl" "" "")
  | 5 => .instruction ((zilogOnly "ex" (register "de") (register "hl") 1 4 .exchangeDeHl).orIntel "xchg" "" "")
  | 6 => .instruction ((zilogOnly "di" .none .none 1 4 (.setInterrupts false)).orIntel "di" "" "")
  | 7 => .instruction ((zilogOnly "ei" .none .none 1 4 (.setInterrupts true)).orIntel "ei" "" "")

def pushColumn (y : BitVec 3) : Slot :=
  match y with
  | 1 => .instruction ((zilogOnly "call" immediateWord .none 3 17 .call).orIntel "call" "" "")
  | 3 => .lead .dd
  | 5 => .lead .ed
  | 7 => .lead .fd
  | _ =>
    let p := Pair.ofStackCode (pairBits y)
    .instruction ((zilogOnly "push" (pairOperand "hl" p) .none 1 11 (.push p)).orIntel "push" (pairIntel p) "")

def lastQuarter (y z : BitVec 3) : Slot :=
  let cc := Condition.ofCode y
  let op := AluOp.ofCode y
  match z with
  | 0 => .instruction
      (((zilogOnly "ret" (conditionOperand cc) .none 1 11 (.retIf cc)).skipping 5).orIntel (retIntel cc) "" "")
  | 1 => .instruction (popColumn y)
  | 2 => .instruction
      ((zilogOnly "jp" (conditionOperand cc) immediateWord 3 10 (.jumpIf cc)).orIntel (jumpIntel cc) "" "")
  | 3 => deviceColumn y
  | 4 => .instruction
      (((zilogOnly "call" (conditionOperand cc) immediateWord 3 17 (.callIf cc)).skipping 10).orIntel
        (callIntel cc) "" "")
  | 5 => pushColumn y
  | 6 => .instruction
      ((zilogOnly (aluName op) (aluDestination y) immediate 2 7 (.combineImmediate op)).orIntel
        (aluImmediateIntel op) "" "")
  | 7 => .instruction
      ((zilogOnly "rst" (register (vectorName y)) .none 1 11 (.restart (y.setWidth 8 <<< 3))).orIntel
        "rst" (vectorIntel y) "")

/-! ## The page -/

def base (opcode : Byte) : Slot :=
  let y := upper opcode
  let z := lower opcode
  match quarter opcode with
  | 0 => .instruction (firstQuarter y z)
  | 1 => .instruction (moves y z)
  | 2 => .instruction (combinations y z)
  | 3 => lastQuarter y z

end Micro80.Encoding
