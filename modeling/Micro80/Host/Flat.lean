/-
  Micro80.Host.Flat — memory over the whole address space, and 256 ports. Reading a port
  gives the value last put there, 0xFF if none was; what is written to ports is kept in
  order. A reset clears the memory and that record, and leaves the port inputs.
-/

import Micro80.Host.Bus
import Micro80.State.Memory

namespace Micro80.Bus

structure Flat where
  memory : Memory := .zero
  inputs : Vector Byte 256 := Vector.replicate 256 0xFF
  /-- Port and value of every output, oldest first. -/
  outputs : Array (Byte × Byte) := #[]

namespace Flat

def load (b : Flat) (a : Word) (bytes : List Byte) : Flat := { b with memory := b.memory.load a bytes }

def setInput (b : Flat) (port value : Byte) : Flat :=
  { b with inputs := b.inputs.set port.toNat value port.isLt }

def getInput (b : Flat) (port : Byte) : Byte := b.inputs[port.toNat]

instance : PortBus Flat where
  read b a := (b.memory.get a, b)
  write b a v := { b with memory := b.memory.set a v }
  reset b := { b with memory := .zero, outputs := #[] }
  input b port := (b.getInput port, b)
  output b port v := { b with outputs := b.outputs.push (port, v) }

theorem getInput_setInput (b : Flat) (p q v : Byte) :
    (b.setInput p v).getInput q = if p = q then v else b.getInput q := by
  simp only [getInput, setInput, Vector.getElem_set, BitVec.toNat_inj]

end Flat

end Micro80.Bus
