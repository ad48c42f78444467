/-
  Micro80.Execution.Cpu — the interpreter: registers, a cycle counter, a dialect and the
  bus. A step decodes the instruction at the program counter, performs it, and charges
  its cost. A step that finds no instruction changes nothing; one that halts leaves the
  program counter on the halt. The cycle counter survives a reset.
-/

import Micro80.Encoding.Lookup
import Micro80.Execution.Perform
import Micro80.Execution.Stop
import Micro80.Host.Processor
import Micro80.Text.Columns

namespace Micro80

structure Cpu (β : Type) where
  regs : Registers := {}
  cycles : Nat := 0
  dialect : Dialect
  bus : β

namespace Instruction

def site (i : Instruction) (start : Word) : Site where
  start := start
  operands := start + BitVec.ofNat 16 i.page.width
  next := start + BitVec.ofNat 16 i.descriptor.length
  pointer := i.page.pointer

def target (i : Instruction) (start : Word) : Outcome → Word
  | .next | .skip => (i.site start).next
  | .jump target => target
  | .halt => start

def cost (i : Instruction) : Outcome → Nat
  | .skip => i.descriptor.cyclesSkipped
  | _ => i.descriptor.cycles

end Instruction

def Outcome.stop? : Outcome → Option Stop
  | halt => some .halt
  | _ => none

namespace Cpu

variable {β : Type}

def new (dialect : Dialect) (bus : β) : Cpu β := { dialect, bus }

section
variable [PortBus β]

/-- Performs a decoded instruction: the refresh register counts its opcode bytes first. -/
def execute (i : Instruction) : Cpu β → Option Stop × Cpu β
  | ⟨regs, cycles, dialect, bus⟩ =>
    let start := regs.pc
    let (outcome, ⟨regs, bus⟩) := i.descriptor.action.perform (i.site start) ⟨regs.refresh i.page.width, bus⟩
    (outcome.stop?, ⟨{ regs with pc := i.target start outcome }, cycles + i.cost outcome, dialect, bus⟩)

def step : Cpu β → Option Stop × Cpu β
  | ⟨regs, cycles, dialect, bus⟩ =>
    match decode dialect regs.pc bus with
    | (.error opcode, bus) => (some (.invalid opcode regs.pc), ⟨regs, cycles, dialect, bus⟩)
    | (.ok i, bus) => execute i ⟨regs, cycles, dialect, bus⟩

/-- A warm reset clears the program counter and the interrupt state, a cold one every
    register and what the bus clears. -/
def reset (c : Cpu β) (cold : Bool) : Cpu β :=
  match c with
  | ⟨regs, cycles, dialect, bus⟩ =>
    if cold then ⟨{}, cycles, dialect, Bus.reset bus⟩
    else ⟨{ regs with pc := 0, i := 0, r := 0, im := 0, iff1 := false, iff2 := false }, cycles, dialect, bus⟩

end

def pc (c : Cpu β) : Word := c.regs.pc

def setPc (c : Cpu β) (pc : Word) : Cpu β := { c with regs := { c.regs with pc } }

def dump (c : Cpu β) : String := c.regs.dump

instance [PortBus β] : Processor (Cpu β) where
  Registers := Micro80.Registers
  Stop := Micro80.Stop
  step := step
  reset := reset
  pc := pc
  registers := regs
  cycles := cycles

end Cpu

end Micro80
