/-
  Micro80.Instruction.Action — what an instruction does, apart from its bytes and its
  spelling. An action names its operands; the one thing it leaves open is the pair that
  HL stands for, which is the page's to say. Operand bytes are read when the action is
  performed.
-/

import Micro80.Alu.Operation
import Micro80.State.Condition
import Micro80.State.Registers

namespace Micro80

/-- Where a byte operand lives: in a register, or in the cell that the pointer pair (with a
    displacement, when that is an index register) addresses. -/
inductive Place where
  | reg (r : Reg)
  | cell
  deriving DecidableEq, Repr

def Place.ofCode : BitVec 3 → Place
  | 0 => reg .b | 1 => reg .c | 2 => reg .d | 3 => reg .e | 4 => reg .h | 5 => reg .l | 6 => cell | 7 => reg .a

structure Block where
  down : Bool
  repeats : Bool
  deriving DecidableEq, Repr

/-- Among the constructors, `Immediate` is an operand byte or word, `Absolute` the memory
    at an operand word, `Indirect` the memory at a pair. -/
inductive Action where
  | load (dst src : Place)
  | loadImmediate (dst : Place)
  | loadPairImmediate (dst : Pair)
  | storeIndirect (address : Pair)
  | fetchIndirect (address : Pair)
  | storeAbsolute
  | fetchAbsolute
  | storePairAbsolute (src : Pair)
  | fetchPairAbsolute (dst : Pair)
  | loadStackPointer
  | push (src : Pair)
  | pop (dst : Pair)
  | exchangeAf
  | exchangeMain
  | exchangeDeHl
  | exchangeStack
  | storeInterruptPage
  | storeRefresh
  | fetchInterruptPage
  | fetchRefresh
  | increment (dst : Place)
  | decrement (dst : Place)
  | incrementPair (dst : Pair)
  | decrementPair (dst : Pair)
  | addPair (src : Pair)
  | addPairCarry (src : Pair)
  | subtractPairCarry (src : Pair)
  | combine (op : AluOp) (src : Place)
  | combineImmediate (op : AluOp)
  | adjust (op : Adjustment)
  | setCarry
  | complementCarry
  | rotateDigitsLeft
  | rotateDigitsRight
  | copyBlock (block : Block)
  | searchBlock (block : Block)
  | nop
  | halt
  | jump
  | jumpIf (condition : Condition)
  | jumpPointer
  | jumpRelative
  | jumpRelativeIf (condition : Condition)
  | countDown
  | call
  | callIf (condition : Condition)
  | ret
  | retIf (condition : Condition)
  | retInterrupt
  | restart (vector : Byte)
  | setInterrupts (enabled : Bool)
  | setInterruptMode (mode : Byte)
  | outputImmediate
  | inputImmediate
  | output (src : Reg)
  | input (dst : Reg)
  deriving DecidableEq, Repr

end Micro80
