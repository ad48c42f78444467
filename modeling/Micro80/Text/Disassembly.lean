/-
  Micro80.Text.Disassembly — an instruction as text, from the same descriptions that
  execution uses. Of a valid instruction its own bytes are read and no others, each once
  and in order.
-/

import Micro80.Encoding.Lookup
import Micro80.Text.Hex

namespace Micro80

structure Disassembly where
  mnemonic : String
  /-- Empty when there is no destination to show. -/
  dst : String
  src : String
  length : Nat
  deriving DecidableEq, Repr

namespace Disassembly

def invalid : Disassembly := ⟨"INVALID", "", "", 1⟩

def operands (d : Disassembly) : String :=
  if d.dst.isEmpty then d.src else if d.src.isEmpty then d.dst else d.dst ++ "," ++ d.src

def padded (width : Nat) (text : String) : String := text ++ String.ofList (List.replicate (width - text.length) ' ')

def text (d : Disassembly) : String := padded 6 d.mnemonic ++ padded 4 d.operands

/-! ## Operands -/

/-- A signed byte by its magnitude, behind its sign. -/
def signed (d : Byte) : String := (if d.msb then "-$" else "+$") ++ Text.Hex.byte (if d.msb then -d else d)

/-- The name of a memory operand, in brackets in Zilog syntax and bare in Intel's. -/
def memoryName (dialect : Dialect) (name : String) : String :=
  match dialect with
  | .z80 => "(" ++ name ++ ")"
  | .i8080 => name

structure Frame where
  dialect : Dialect
  /-- The first byte after the opcode. -/
  operands : Word
  next : Word
  displaced : Bool

section
variable {β : Type} [Bus β]

def operandByte (f : Frame) (offset : Word) : StateM β Byte := fun bus => Bus.read bus (f.operands + offset)

def operandWord (f : Frame) : StateM β Word := do
  let low ← operandByte f 0
  let high ← operandByte f 1
  return Word.ofBytes high low

def operandText (f : Frame) (kind : OperandKind) (name : String) : StateM β String := do
  if kind.isNamed && name.isEmpty then return ""
  match kind with
  | .none => return ""
  | .register | .condition => return name
  | .registerIndirect => return memoryName f.dialect name
  | .immediate => return "$" ++ Text.Hex.byte (← operandByte f (if f.displaced then 1 else 0))
  | .immediateExtended => return "$" ++ Text.Hex.word (← operandWord f)
  | .indirect => return "($" ++ Text.Hex.byte (← operandByte f 0) ++ ")"
  | .extended => return "($" ++ Text.Hex.word (← operandWord f) ++ ")"
  | .displacement => return "$" ++ Text.Hex.word (f.next.displace (← operandByte f 0))
  | .indexed => return "(" ++ name ++ signed (← operandByte f 0) ++ ")"

/-! ## Instructions -/

def ofInstruction (dialect : Dialect) (address : Word) (i : Instruction) : StateM β Disassembly := do
  let d := i.descriptor
  match d.spelling? dialect with
  | none => return invalid
  | some spelling =>
    let frame : Frame :=
      { dialect
        operands := address + BitVec.ofNat 16 i.page.width
        next := address + BitVec.ofNat 16 d.length
        displaced := d.dst = .indexed || d.src = .indexed }
    let dst ← operandText frame d.dst spelling.dst
    let src ← operandText frame d.src spelling.src
    return ⟨spelling.mnemonic, dst, src, d.length⟩

def read (dialect : Dialect) (address : Word) : StateM β Disassembly := do
  match ← decode dialect address with
  | .error _ => return invalid
  | .ok i => ofInstruction dialect address i

def listing (dialect : Dialect) (address : Word) : Nat → StateM β (List (Word × Disassembly))
  | 0 => return []
  | count + 1 => do
    let d ← read dialect address
    let rest ← listing dialect (address + BitVec.ofNat 16 d.length) count
    return (address, d) :: rest

end

end Disassembly

end Micro80
