/-
  Micro80.Execution.Machine — the state that an instruction acts on, registers and bus,
  and the accesses that instructions are made of. Words in memory are little-endian; the
  stack grows downward, high byte first.
-/

import Micro80.Host.Bus
import Micro80.Instruction.Action

namespace Micro80

structure Machine (β : Type) where
  regs : Registers
  bus : β

/-- Where an instruction stands: its first byte, the first byte after its opcode, the next
    instruction, and the pair that HL stands for. -/
structure Site where
  start : Word
  operands : Word
  next : Word
  pointer : Pointer
  deriving DecidableEq, Repr

abbrev Effect (β : Type) := StateM (Machine β)

namespace Effect

variable {β : Type}

/-! ## Registers and bus -/

def regs : Effect β Registers := fun m => (m.regs, m)

def modifyRegs (g : Registers → Registers) : Effect β Unit := fun ⟨regs, bus⟩ => ((), ⟨g regs, bus⟩)

def read [Bus β] (a : Word) : Effect β Byte := fun ⟨regs, bus⟩ =>
  let (v, bus) := Bus.read bus a
  (v, ⟨regs, bus⟩)

def write [Bus β] (a : Word) (v : Byte) : Effect β Unit := fun ⟨regs, bus⟩ => ((), ⟨regs, Bus.write bus a v⟩)

def input [PortBus β] (port : Byte) : Effect β Byte := fun ⟨regs, bus⟩ =>
  let (v, bus) := PortBus.input bus port
  (v, ⟨regs, bus⟩)

def output [PortBus β] (port v : Byte) : Effect β Unit := fun ⟨regs, bus⟩ =>
  ((), ⟨regs, PortBus.output bus port v⟩)

variable [Bus β]

def readWord (a : Word) : Effect β Word := do
  let low ← read a
  let high ← read (a + 1)
  return Word.ofBytes high low

def writeWord (a w : Word) : Effect β Unit := do
  write a w.low
  write (a + 1) w.high

def push (w : Word) : Effect β Unit := do
  let sp := (← regs).sp
  write (sp - 1) w.high
  write (sp - 2) w.low
  modifyRegs ({ · with sp := sp - 2 })

def pop : Effect β Word := do
  let sp := (← regs).sp
  let w ← readWord sp
  modifyRegs ({ · with sp := sp + 2 })
  return w

/-! ## Operands -/

/-- The operand byte: the first, or the one after a displacement. -/
def immediate (s : Site) : Effect β Byte := read (s.operands + if s.pointer = .hl then 0 else 1)

def immediateWord (s : Site) : Effect β Word := readWord s.operands

/-- The address a displacement past the next instruction. -/
def relative (s : Site) : Effect β Word := do
  let d ← read s.operands
  return s.next.displace d

/-- The address of the memory operand: the pointer, an index register being displaced. -/
def cellAddress (s : Site) : Effect β Word := do
  match s.pointer with
  | .hl => return (← regs).hl
  | x =>
    let d ← read s.operands
    return ((← regs).pointer x).displace d

def get (s : Site) : Place → Effect β Byte
  | .reg r => return (← regs).get r
  | .cell => do read (← cellAddress s)

def set (s : Site) (v : Byte) : Place → Effect β Unit
  | .reg r => modifyRegs (·.set r v)
  | .cell => do write (← cellAddress s) v

/-- Changes an operand and the flags; a memory operand's address is worked out once. -/
def update (s : Site) (g : Flags → Byte → Byte × Flags) : Place → Effect β Unit
  | .reg r => modifyRegs fun regs =>
    let (v, f) := g regs.f (regs.get r)
    { regs with f }.set r v
  | .cell => do
    let address ← cellAddress s
    let (v, f) := g (← regs).f (← read address)
    modifyRegs ({ · with f })
    write address v

def accumulate (g : Flags → Byte → Byte × Flags) : Effect β Unit := modifyRegs fun regs =>
  let (a, f) := g regs.f regs.a
  { regs with a, f }

end Effect

end Micro80
