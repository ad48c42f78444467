/-
  Micro80.Instruction.Dialect — the two instruction sets. The smaller one is a part of
  the larger, with a spelling of its own; registers, flags and timing are shared.
-/

namespace Micro80

inductive Dialect where
  | z80
  | i8080
  deriving DecidableEq, Repr, Inhabited

structure UnknownDialect where
  name : String
  deriving DecidableEq, Repr

def UnknownDialect.message (e : UnknownDialect) : String :=
  "unknown dialect \x60" ++ e.name ++ "\x60 (expected z80 or 8080)"

namespace Dialect

def name : Dialect → String
  | z80 => "z80"
  | i8080 => "8080"

/-- Names are read without regard to the case of ASCII letters; `i8080` is a second name. -/
def parse (text : String) : Except UnknownDialect Dialect :=
  match String.ofList (text.toList.map Char.toLower) with
  | "z80" => .ok z80
  | "8080" => .ok i8080
  | "i8080" => .ok i8080
  | _ => .error ⟨text⟩

end Dialect

end Micro80
