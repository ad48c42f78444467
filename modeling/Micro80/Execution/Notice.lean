/-
  Micro80.Execution.Notice — the messages that a processor has for its host's log. A
  reset is worth information; a stop is for debugging; every instruction of a trace is
  announced before it is executed.
-/

import Micro80.Execution.Trace

namespace Micro80

inductive Level where
  | trace | debug | info
  deriving DecidableEq, Repr

def Level.name : Level → String
  | trace => "TRACE"
  | debug => "DEBUG"
  | info => "INFO"

structure Notice where
  level : Level
  text : String
  deriving DecidableEq, Repr

namespace Notice

def ofReset (d : Dialect) (cold : Bool) : Notice :=
  ⟨.info, d.name ++ " reset (" ++ (if cold then "cold" else "warm") ++ ")"⟩

def ofStop (pc : Word) : Stop → Notice
  | .halt => ⟨.debug, "halt at 0x" ++ Text.Hex.word pc⟩
  | .invalid opcode address =>
    ⟨.debug, "invalid instruction 0x" ++ Text.Hex.byte opcode ++ " at 0x" ++ Text.Hex.word address⟩

/-- The messages of a trace that left the program counter at `pc`, in the order they come. -/
def ofTrace (pc : Word) (t : Trace) : List Notice :=
  t.instructions.map (⟨.trace, ·⟩) ++ [ofStop pc t.stop]

end Notice

end Micro80
