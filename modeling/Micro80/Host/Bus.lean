/-
  Micro80.Host.Bus — what a processor reaches outside itself: memory by word address
  and, on a bus with devices, ports by byte number. An access may change the bus, and
  the bus that it leaves is the one the next access meets.
-/

import Micro80.Word

namespace Micro80

class Bus (β : Type) where
  read : β → Word → Byte × β
  write : β → Word → Byte → β
  /-- What a cold reset of the processor does to the bus: nothing, unless the bus owns
      memory to clear. -/
  reset : β → β := id

class PortBus (β : Type) extends Bus β where
  input : β → Byte → Byte × β
  output : β → Byte → Byte → β

end Micro80
