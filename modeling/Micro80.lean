import Micro80.Execution.Notice
import Micro80.Host.Flat
import Micro80.Host.Recorded
import Micro80.Instruction.Describe
import Micro80.Proofs.Adder
import Micro80.Proofs.Binary
import Micro80.Proofs.Block
import Micro80.Proofs.Calls
import Micro80.Proofs.ControlFlow
import Micro80.Proofs.Cycles
import Micro80.Proofs.Decimal
import Micro80.Proofs.Dedicated
import Micro80.Proofs.Delay
import Micro80.Proofs.Dialects
import Micro80.Proofs.DigitRotation
import Micro80.Proofs.Dump
import Micro80.Proofs.Exchanges
import Micro80.Proofs.FlagFrame
import Micro80.Proofs.Footprint
import Micro80.Proofs.Forgetting
import Micro80.Proofs.Guarded
import Micro80.Proofs.Listing
import Micro80.Proofs.Loading
import Micro80.Proofs.Meaning
import Micro80.Proofs.Ports
import Micro80.Proofs.Printed
import Micro80.Proofs.Refresh
import Micro80.Proofs.Relocation
import Micro80.Proofs.Renaming
import Micro80.Proofs.Restoring
import Micro80.Proofs.Stops
import Micro80.Proofs.Substitution
import Micro80.Proofs.Tracing
import Micro80.Proofs.Traffic
import Micro80.Proofs.Unambiguous
import Micro80.Snapshot
import Micro80.State.Assign
