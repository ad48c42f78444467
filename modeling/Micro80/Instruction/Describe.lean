/-
  Micro80.Instruction.Describe — a descriptor as a line of text, field by field, for
  reading when a table is in doubt. What the instruction does is left out of it.
-/

import Micro80.Instruction.Descriptor

namespace Micro80

def quoted (name : String) : String := "\"" ++ name ++ "\""

def recordText (name : String) (fields : List String) : String :=
  name ++ " \x7b " ++ ", ".intercalate fields ++ " \x7d"

/-- Names are put between quotes as they are: none of the tables' names holds a quote or a
    backslash. -/
def Spelling.describe (s : Spelling) : String :=
  recordText "Syntax" ["mnemonic: " ++ quoted s.mnemonic, "dst: " ++ quoted s.dst, "src: " ++ quoted s.src]

def Descriptor.describe (d : Descriptor) : String :=
  recordText "Opcode"
    ["z80: " ++ d.zilog.describe,
     "i8080: " ++ (match d.intel with
      | some s => "Some(" ++ s.describe ++ ")"
      | none => "None"),
     "dst: " ++ d.dst.label, "src: " ++ d.src.label, "len: " ++ toString d.length,
     "cycles: " ++ toString d.cycles, "cycles_not_taken: " ++ toString d.cyclesSkipped, ".."]

end Micro80
