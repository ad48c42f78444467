/-
  Micro80.Execution.Trace — a run written down: before every step the instruction that
  is about to be executed, after it the registers. The last entries belong to the step
  that stopped.
-/

import Micro80.Execution.Cpu
import Micro80.Text.Disassembly

namespace Micro80

structure Trace where
  /-- Address and instruction, oldest first. -/
  instructions : List String
  registers : List String
  stop : Stop
  deriving DecidableEq, Repr

namespace Trace

def length (t : Trace) : Nat := t.instructions.length

def isEmpty (t : Trace) : Bool := t.instructions.isEmpty

def after (t : Trace) (line registers : String) : Trace :=
  { t with instructions := line :: t.instructions, registers := registers :: t.registers }

end Trace

namespace Cpu

variable {β : Type} [PortBus β]

def disassembly (c : Cpu β) (address : Word) : Disassembly × Cpu β :=
  match c with
  | ⟨regs, cycles, dialect, bus⟩ =>
    let (d, bus) := Disassembly.read dialect address bus
    (d, ⟨regs, cycles, dialect, bus⟩)

def disassemble (c : Cpu β) (address : Word) : String × Cpu β :=
  let (d, c) := c.disassembly address
  (d.text, c)

def currentLine (c : Cpu β) : String × Cpu β :=
  let pc := c.pc
  let (text, c) := c.disassemble pc
  (Text.Hex.word pc ++ ": " ++ text, c)

/-- The trace up to the first stop, if it comes within `limit` steps. -/
def trace? : (limit : Nat) → Cpu β → Option Trace × Cpu β
  | 0, c => (none, c)
  | limit + 1, c =>
    let (line, c) := c.currentLine
    match c.step with
    | (some stop, c) => (some ⟨[line], [c.dump], stop⟩, c)
    | (none, c) =>
      let dump := c.dump
      let (t, c) := trace? limit c
      (t.map (·.after line dump), c)

end Cpu

end Micro80
