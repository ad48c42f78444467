/-
  Micro80.Execution.Perform — what each action does to the machine, and where it leaves
  the program. Code bytes are read before data, and data before anything is written.
-/

import Micro80.Alu.Wide
import Micro80.Execution.Machine

namespace Micro80

/-- How an instruction leaves the program counter, and at which of its two costs. -/
inductive Outcome where
  | next
  /-- On to the next instruction, a condition having failed or a repetition ended. -/
  | skip
  | jump (target : Word)
  /-- Nowhere: the program counter stays at the instruction. -/
  | halt
  deriving DecidableEq, Repr

def Outcome.branch (taken : Bool) (target : Word) : Outcome := if taken then .jump target else .skip

namespace Block

def step (k : Block) : Word := if k.down then -1 else 1

def outcome (k : Block) (s : Site) (again : Bool) : Outcome := if k.repeats then .branch again s.start else .next

end Block

namespace Action

variable {β : Type} [PortBus β]

open Effect (regs modifyRegs read write readWord writeWord immediate immediateWord accumulate)

/-! ## Exchanges -/

def exchangedAf (r : Registers) : Registers := { r.setAf r.afAlt with afAlt := r.af }

def exchangedMain (r : Registers) : Registers :=
  { ((r.setBc r.bcAlt).setDe r.deAlt).setHl r.hlAlt with bcAlt := r.bc, deAlt := r.de, hlAlt := r.hl }

def exchangedDeHl (r : Registers) : Registers := (r.setDe r.hl).setHl r.de

/-! ## Sums of pairs -/

def sumPairs (g : Flags → Word → Word → Word × Flags) (s : Site) (x : Pointer) (src : Pair) : Effect β Unit :=
  modifyRegs fun r =>
    let (w, f) := g r.f (r.pointer x) (r.pair s.pointer src)
    { r with f }.setPointer x w

/-! ## The accumulator -/

/-- A special register into the accumulator; parity/overflow shows the second flip-flop. -/
def fetchSpecial (special : Registers → Byte) : Effect β Unit := modifyRegs fun r =>
  { r with a := special r, f := { r.f.judgeLoad (special r) with pv := r.iff2 } }

/-- The accumulator's low digit and the cell at HL trade digits: `turn` gives the new cell
    and the new low digit from the old ones. -/
def rotateDigits (turn : Byte → Byte → Byte × Byte) : Effect β Unit := do
  let r ← regs
  let m ← read r.hl
  let (cell, digit) := turn r.a m
  write r.hl cell
  let a := (r.a &&& 0xF0) ||| digit
  modifyRegs fun r => { r with a, f := { r.f.judgeParity a with h := false, n := false } }

/-! ## Blocks -/

/-- HL, and DE in a copy, move by one step; BC counts down. -/
def advance (k : Block) (withDe : Bool) (r : Registers) : Registers :=
  let r := r.setHl (r.hl + k.step)
  let r := if withDe then r.setDe (r.de + k.step) else r
  r.setBc (r.bc - 1)

def copyBlockStep (k : Block) (s : Site) : Effect β Outcome := do
  let r ← regs
  let v ← read r.hl
  write r.de v
  let more := r.bc - 1 != 0
  modifyRegs fun r => { advance k true r with f := { r.f with h := false, pv := more, n := false } }
  return k.outcome s more

def searchBlockStep (k : Block) (s : Site) : Effect β Outcome := do
  let r ← regs
  let v ← read r.hl
  let more := r.bc - 1 != 0
  let f := { r.f.judge (r.a - v) with h := r.a.toNat % 16 < v.toNat % 16, pv := more, n := true }
  modifyRegs fun r => { advance k false r with f }
  return k.outcome s (more && r.a != v)

/-! ## Control -/

def callTo (s : Site) (target : Word) : Effect β Outcome := do
  Effect.push s.next
  return .jump target

def returnBack : Effect β Outcome := return .jump (← Effect.pop)

/-! ## All actions -/

def perform (s : Site) : Action → Effect β Outcome
  | load dst src => do
    let v ← Effect.get s src
    Effect.set s v dst
    return .next
  | loadImmediate dst => do
    let v ← immediate s
    Effect.set s v dst
    return .next
  | loadPairImmediate dst => do
    let w ← immediateWord s
    modifyRegs (·.setPair s.pointer dst w)
    return .next
  | storeIndirect address => do
    let r ← regs
    write (r.pair s.pointer address) r.a
    return .next
  | fetchIndirect address => do
    let v ← read ((← regs).pair s.pointer address)
    modifyRegs ({ · with a := v })
    return .next
  | storeAbsolute => do
    let address ← immediateWord s
    write address (← regs).a
    return .next
  | fetchAbsolute => do
    let v ← read (← immediateWord s)
    modifyRegs ({ · with a := v })
    return .next
  | storePairAbsolute src => do
    let address ← immediateWord s
    writeWord address ((← regs).pair s.pointer src)
    return .next
  | fetchPairAbsolute dst => do
    let w ← readWord (← immediateWord s)
    modifyRegs (·.setPair s.pointer dst w)
    return .next
  | loadStackPointer => do
    modifyRegs fun r => { r with sp := r.pointer s.pointer }
    return .next
  | push src => do
    Effect.push ((← regs).pair s.pointer src)
    return .next
  | pop dst => do
    let w ← Effect.pop
    modifyRegs (·.setPair s.pointer dst w)
    return .next
  | exchangeAf => do
    modifyRegs exchangedAf
    return .next
  | exchangeMain => do
    modifyRegs exchangedMain
    return .next
  | exchangeDeHl => do
    modifyRegs exchangedDeHl
    return .next
  | exchangeStack => do
    let r ← regs
    let w ← readWord r.sp
    writeWord r.sp (r.pointer s.pointer)
    modifyRegs (·.setPointer s.pointer w)
    return .next
  | storeInterruptPage => do
    modifyRegs fun r => { r with i := r.a }
    return .next
  | storeRefresh => do
    modifyRegs fun r => { r with r := r.a }
    return .next
  | fetchInterruptPage => do
    fetchSpecial Registers.i
    return .next
  | fetchRefresh => do
    fetchSpecial Registers.r
    return .next
  | increment dst => do
    Effect.update s Alu.inc dst
    return .next
  | decrement dst => do
    Effect.update s Alu.dec dst
    return .next
  | incrementPair dst => do
    modifyRegs fun r => r.setPair s.pointer dst (r.pair s.pointer dst + 1)
    return .next
  | decrementPair dst => do
    modifyRegs fun r => r.setPair s.pointer dst (r.pair s.pointer dst - 1)
    return .next
  | addPair src => do
    sumPairs Alu.addWord s s.pointer src
    return .next
  | addPairCarry src => do
    sumPairs Alu.adcWord s .hl src
    return .next
  | subtractPairCarry src => do
    sumPairs Alu.sbcWord s .hl src
    return .next
  | combine op src => do
    let v ← Effect.get s src
    accumulate (op.apply · · v)
    return .next
  | combineImmediate op => do
    let v ← immediate s
    accumulate (op.apply · · v)
    return .next
  | adjust op => do
    accumulate (op.apply · ·)
    return .next
  | setCarry => do
    modifyRegs fun r => { r with f := Alu.scf r.f }
    return .next
  | complementCarry => do
    modifyRegs fun r => { r with f := Alu.ccf r.f }
    return .next
  | rotateDigitsLeft => do
    rotateDigits fun a m => ((m <<< 4) ||| (a &&& 0x0F), m >>> 4)
    return .next
  | rotateDigitsRight => do
    rotateDigits fun a m => ((a <<< 4) ||| (m >>> 4), m &&& 0x0F)
    return .next
  | copyBlock k => copyBlockStep k s
  | searchBlock k => searchBlockStep k s
  | nop => return .next
  | halt => return .halt
  | jump => return .jump (← immediateWord s)
  | jumpIf cc => do
    let target ← immediateWord s
    return .branch (cc.holds (← regs).f) target
  | jumpPointer => return .jump ((← regs).pointer s.pointer)
  | jumpRelative => return .jump (← Effect.relative s)
  | jumpRelativeIf cc => do
    let target ← Effect.relative s
    return .branch (cc.holds (← regs).f) target
  | countDown => do
    modifyRegs fun r => { r with b := r.b - 1 }
    let target ← Effect.relative s
    return .branch ((← regs).b != 0) target
  | call => do callTo s (← immediateWord s)
  | callIf cc => do
    if cc.holds (← regs).f then callTo s (← immediateWord s) else return .skip
  | ret => returnBack
  | retIf cc => do
    if cc.holds (← regs).f then returnBack else return .skip
  | retInterrupt => do
    modifyRegs fun r => { r with iff1 := r.iff2 }
    returnBack
  | restart vector => callTo s (vector.setWidth 16)
  | setInterrupts enabled => do
    modifyRegs ({ · with iff1 := enabled, iff2 := enabled })
    return .next
  | setInterruptMode mode => do
    modifyRegs ({ · with im := mode })
    return .next
  | outputImmediate => do
    let port ← immediate s
    Effect.output port (← regs).a
    return .next
  | inputImmediate => do
    let v ← Effect.input (← immediate s)
    modifyRegs ({ · with a := v })
    return .next
  | output src => do
    let r ← regs
    Effect.output r.c (r.get src)
    return .next
  | input dst => do
    let v ← Effect.input (← regs).c
    modifyRegs fun r => { r with f := r.f.judgeInput v }.set dst v
    return .next

end Action

end Micro80
