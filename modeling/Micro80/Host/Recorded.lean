/-
  Micro80.Host.Recorded — a bus under observation and a bus that keeps its contents. The
  first writes down every access in order and is otherwise the bus inside it; the second
  forwards accesses and not resets.
-/

import Micro80.Host.Bus

namespace Micro80.Bus

inductive Access where
  | read (address : Word) (value : Byte)
  | write (address : Word) (value : Byte)
  | input (port : Byte) (value : Byte)
  | output (port : Byte) (value : Byte)
  | reset
  deriving DecidableEq, Repr

def Access.isWrite : Access → Bool
  | write .. => true
  | _ => false

structure Recorded (β : Type) where
  bus : β
  accesses : Array Access := #[]

namespace Recorded

variable {β : Type}

def fresh (r : Recorded β) : Recorded β := ⟨r.bus, #[]⟩

def writes (r : Recorded β) : Nat := r.accesses.countP Access.isWrite

instance [PortBus β] : PortBus (Recorded β) where
  read := fun ⟨bus, log⟩ a =>
    let (v, bus) := Bus.read bus a
    (v, ⟨bus, log.push (.read a v)⟩)
  write := fun ⟨bus, log⟩ a v => ⟨Bus.write bus a v, log.push (.write a v)⟩
  reset := fun ⟨bus, log⟩ => ⟨Bus.reset bus, log.push .reset⟩
  input := fun ⟨bus, log⟩ port =>
    let (v, bus) := PortBus.input bus port
    (v, ⟨bus, log.push (.input port v)⟩)
  output := fun ⟨bus, log⟩ port v => ⟨PortBus.output bus port v, log.push (.output port v)⟩

end Recorded

/-- A bus whose contents outlive a reset. -/
structure Retained (β : Type) where
  bus : β

instance {β : Type} [PortBus β] : PortBus (Retained β) where
  read := fun ⟨bus⟩ a =>
    let (v, bus) := Bus.read bus a
    (v, ⟨bus⟩)
  write := fun ⟨bus⟩ a v => ⟨Bus.write bus a v⟩
  input := fun ⟨bus⟩ port =>
    let (v, bus) := PortBus.input bus port
    (v, ⟨bus⟩)
  output := fun ⟨bus⟩ port v => ⟨PortBus.output bus port v⟩

end Micro80.Bus
