/-
  Micro80.Instruction.Descriptor — the description of one instruction: how either
  dialect spells it, what kind of operand stands in each place, how long it is, what it
  costs and what it does. An instruction without an Intel spelling does not exist in
  that dialect.
-/

import Micro80.Instruction.Action
import Micro80.Instruction.Dialect

namespace Micro80

/-! ## Operands -/

inductive OperandKind where
  | none
  /-- A register, a restart vector or a mode number, written as its name. -/
  | register
  | registerIndirect
  | immediate
  | immediateExtended
  /-- A port given by an operand byte. -/
  | indirect
  /-- Memory at an operand word. -/
  | extended
  /-- A signed distance from the next instruction. -/
  | displacement
  | condition
  /-- Memory at an index register and a signed displacement. -/
  | indexed
  deriving DecidableEq, Repr

namespace OperandKind

/-- The operands whose text is a name; an empty name hides them. -/
def isNamed : OperandKind → Bool
  | register | registerIndirect | condition | indexed => true
  | _ => false

def label : OperandKind → String
  | none => "None"
  | register => "Register"
  | registerIndirect => "RegisterIndirect"
  | immediate => "Immediate"
  | immediateExtended => "ImmediateExtended"
  | indirect => "Indirect"
  | extended => "Extended"
  | displacement => "Displacement"
  | condition => "Condition"
  | indexed => "Indexed"

end OperandKind

structure Operand where
  kind : OperandKind
  name : String := ""
  deriving DecidableEq, Repr

namespace Operand

def none : Operand := ⟨.none, ""⟩

def register (name : String) : Operand := ⟨.register, name⟩

def memoryAt (name : String) : Operand := ⟨.registerIndirect, name⟩

def indexed (name : String) : Operand := ⟨.indexed, name⟩

def immediate : Operand := ⟨.immediate, ""⟩

def immediateWord : Operand := ⟨.immediateExtended, ""⟩

def port : Operand := ⟨.indirect, ""⟩

def absolute : Operand := ⟨.extended, ""⟩

def relative : Operand := ⟨.displacement, ""⟩

end Operand

/-! ## Descriptors -/

structure Spelling where
  mnemonic : String
  dst : String
  src : String
  deriving DecidableEq, Repr

structure Descriptor where
  zilog : Spelling
  intel : Option Spelling
  dst : OperandKind
  src : OperandKind
  /-- Bytes in all, a lead byte included. -/
  length : Nat
  cycles : Nat
  /-- The cost when a condition fails or a repetition ends. -/
  cyclesSkipped : Nat
  action : Action
  deriving DecidableEq, Repr

namespace Descriptor

def zilogOnly (mnemonic : String) (dst src : Operand) (length cycles : Nat) (action : Action) : Descriptor :=
  ⟨⟨mnemonic, dst.name, src.name⟩, .none, dst.kind, src.kind, length, cycles, cycles, action⟩

def orIntel (d : Descriptor) (mnemonic dst src : String) : Descriptor :=
  { d with intel := some ⟨mnemonic, dst, src⟩ }

def skipping (d : Descriptor) (cycles : Nat) : Descriptor := { d with cyclesSkipped := cycles }

def spelling? (d : Descriptor) : Dialect → Option Spelling
  | .z80 => some d.zilog
  | .i8080 => d.intel

end Descriptor

/-! ## Pages -/

inductive Page where
  | base | dd | ed | fd
  deriving DecidableEq, Repr

inductive Slot where
  /-- No instruction. -/
  | vacant
  | instruction (d : Descriptor)
  /-- A lead byte: the next byte is looked up in another page. -/
  | lead (page : Page)
  deriving DecidableEq, Repr

namespace Slot

def isLead : Slot → Bool
  | lead _ => true
  | _ => false

def descriptor? : Slot → Option Descriptor
  | instruction d => some d
  | _ => .none

end Slot

end Micro80
