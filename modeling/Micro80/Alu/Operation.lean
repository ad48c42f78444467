/-
  Micro80.Alu.Operation — the operations on the accumulator as data: eight that combine
  it with a second operand, selected by three bits of an opcode, and those on it alone.
-/

import Micro80.Alu.Byte
import Micro80.Alu.Decimal
import Micro80.Alu.Rotation

namespace Micro80

inductive AluOp where
  | add | adc | sub | sbc | and | xor | or | cp
  deriving DecidableEq, Repr

namespace AluOp

def ofCode : BitVec 3 → AluOp
  | 0 => add | 1 => adc | 2 => sub | 3 => sbc | 4 => and | 5 => xor | 6 => or | 7 => cp

/-- The new accumulator and flags; a comparison subtracts and keeps the accumulator. -/
def apply (f : Flags) (a value : Byte) : AluOp → Byte × Flags
  | add => Alu.add f a value false
  | adc => Alu.add f a value f.c
  | sub => Alu.sub f a value false
  | sbc => Alu.sub f a value f.c
  | and => Alu.and f a value
  | xor => Alu.xor f a value
  | or => Alu.or f a value
  | cp => (a, (Alu.sub f a value false).2)

end AluOp

inductive Adjustment where
  | rlca | rrca | rla | rra | daa | cpl | neg
  deriving DecidableEq, Repr

def Adjustment.apply (f : Flags) (a : Byte) : Adjustment → Byte × Flags
  | .rlca => Alu.rlca f a
  | .rrca => Alu.rrca f a
  | .rla => Alu.rla f a
  | .rra => Alu.rra f a
  | .daa => Alu.daa f a
  | .cpl => Alu.cpl f a
  | .neg => Alu.neg f a

end Micro80
