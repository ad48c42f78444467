/-
  Micro80.Encoding.Lookup — from the bytes at an address to an instruction. The first
  byte is looked up in the base page. A lead byte leads to a further page, in the larger
  dialect only; an opcode counts only if the dialect can spell it.
-/

import Micro80.Encoding.Base
import Micro80.Encoding.Index
import Micro80.Encoding.Supplement
import Micro80.Host.Bus

namespace Micro80

def Page.slot : Page → Byte → Slot
  | base => Encoding.base
  | dd => Encoding.index "ix"
  | ed => Encoding.supplement
  | fd => Encoding.index "iy"

/-- The opcodes of a page that lead to another page, in ascending order. -/
def Page.leads (p : Page) : List Nat := (List.range 256).filter fun n => (p.slot (BitVec.ofNat 8 n)).isLead

def Page.width : Page → Nat
  | base => 1
  | _ => 2

def Page.pointer : Page → Pointer
  | dd => .ix
  | fd => .iy
  | _ => .hl

structure Instruction where
  descriptor : Descriptor
  page : Page
  deriving DecidableEq, Repr

/-- The instruction that a page holds at `opcode`, if there is one that `d` can spell;
    otherwise the opcode itself. -/
def Slot.decode (slot : Slot) (page : Page) (d : Dialect) (opcode : Byte) : Except Byte Instruction :=
  match slot with
  | instruction descriptor =>
    if (descriptor.spelling? d).isSome then .ok ⟨descriptor, page⟩ else .error opcode
  | _ => .error opcode

def decode {β : Type} [Bus β] (d : Dialect) (address : Word) (bus : β) : Except Byte Instruction × β :=
  let (first, bus) := Bus.read bus address
  match d, Page.base.slot first with
  | .z80, .lead page =>
    let (second, bus) := Bus.read bus (address + 1)
    ((page.slot second).decode page d second, bus)
  | _, slot => (slot.decode .base d first, bus)

def lookup {β : Type} [Bus β] (d : Dialect) (address : Word) (bus : β) : Option Descriptor × β :=
  let (decoded, bus) := decode d address bus
  (decoded.toOption.map Instruction.descriptor, bus)

end Micro80
