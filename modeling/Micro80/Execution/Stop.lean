/-
  Micro80.Execution.Stop — why a step does not go on to another instruction.
-/

import Micro80.Text.Hex

namespace Micro80

inductive Stop where
  /-- A halt was executed; the program counter still points at it. -/
  | halt
  /-- No instruction has this opcode: the first byte at `address`, or the byte after it
      when the first leads to another page. -/
  | invalid (opcode : Byte) (address : Word)
  deriving DecidableEq, Repr

def Stop.message : Stop → String
  | halt => "halt"
  | invalid opcode address =>
    "invalid instruction: 0x" ++ Text.Hex.byte opcode ++ " @ 0x" ++ Text.Hex.word address

end Micro80
