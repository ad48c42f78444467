/-
  Micro80.Proofs.Guarded — the interpreter with its assumptions checked. A sum says how wide
  it is and does not take a carry past that; a byte register is looked up by its code, which
  the code of the memory operand is not; a page is a table of 256 slots, read at an index.
  What fails a check is a fault (`Fault`), and a fault ends the step. Only the parts that
  take such a sum, look up a register or read a table are written anew. All other sums go
  round at the width of a byte or a word, and the parts that take them are performed as they
  stand (`lift`).

  Proved, for every bus, either dialect and any contents of the registers:
  - `step_faultless`: while the cycle counter is at least 24 below 2^64, a guarded step has
    no fault and is the step. Past that, the counter is all that can overflow
    (`step_eq_fit`, `step_overflow`).
-/

import Micro80.Proofs.Cycles

namespace Micro80.Guarded

open Bus (Flat)
open Encoding (upper lower)

/-! ## Faults -/

inductive Fault where
  | noRegister (code : BitVec 3)
  | noEntry (index : Nat)
  | overflow (width sum : Nat)
  deriving DecidableEq, Repr

theorem ok_bind {α γ : Type} (v : α) (g : α → Except Fault γ) : (Except.ok v >>= g) = g v := rfl

def sum (w x y : Nat) : Except Fault Nat := if x + y < 2 ^ w then .ok (x + y) else .error (.overflow w (x + y))

theorem sum_ok {w x y : Nat} (h : x + y < 2 ^ w) : sum w x y = .ok (x + y) := if_pos h

theorem sum_overflow {w x y : Nat} (h : 2 ^ w ≤ x + y) : sum w x y = .error (.overflow w (x + y)) :=
  if_neg (Nat.not_lt.mpr h)

/-! ## Arithmetic -/

def inc (f : Flags) (a : Byte) : Except Fault (Byte × Flags) := do
  let r := a + 1
  let digits ← sum 8 (a.toNat % 16) 1
  return (r, { f.judge r with h := digits.testBit 4, pv := a == 0x7F, n := false })

def add (f : Flags) (a b : Byte) (carry : Bool) : Except Fault (Byte × Flags) := do
  let bytes ← sum 16 a.toNat b.toNat
  let whole ← sum 16 bytes carry.toNat
  let digits ← sum 8 (a.toNat % 16) (b.toNat % 16)
  let half ← sum 8 digits carry.toNat
  let r := BitVec.ofNat 8 whole
  return (r, { f.judge r with h := 15 < half, pv := a.msb == b.msb && a.msb != r.msb, n := false, c := 255 < whole })

def sub (f : Flags) (a b : Byte) (borrow : Bool) : Except Fault (Byte × Flags) := do
  let r := a - b - BitVec.ofNat 8 borrow.toNat
  let half ← sum 8 (b.toNat % 16) borrow.toNat
  let whole ← sum 16 b.toNat borrow.toNat
  return (r, { f.judge r with
    h := a.toNat % 16 < half, pv := a.msb != b.msb && a.msb != r.msb, n := true, c := a.toNat < whole })

def addWord (f : Flags) (a b : Word) : Except Fault (Word × Flags) := do
  let whole ← sum 32 a.toNat b.toNat
  let half ← sum 16 (a.toNat % 4096) (b.toNat % 4096)
  return (BitVec.ofNat 16 whole, { f with h := 4095 < half, n := false, c := 65535 < whole })

def adcWord (f : Flags) (a b : Word) : Except Fault (Word × Flags) := do
  let words ← sum 32 a.toNat b.toNat
  let whole ← sum 32 words f.c.toNat
  let digits ← sum 32 (a.toNat % 4096) (b.toNat % 4096)
  let half ← sum 32 digits f.c.toNat
  let r := BitVec.ofNat 16 whole
  return (r, { f with
    s := r.msb, z := r == 0, h := 4095 < half, pv := a.msb == b.msb && a.msb != r.msb, n := false, c := 65535 < whole })

def sbcWord (f : Flags) (a b : Word) : Except Fault (Word × Flags) := do
  let r := a - b - BitVec.ofNat 16 f.c.toNat
  let half ← sum 32 (b.toNat % 4096) f.c.toNat
  let whole ← sum 32 b.toNat f.c.toNat
  return (r, { f with
    s := r.msb, z := r == 0, h := a.toNat % 4096 < half, pv := a.msb != b.msb && a.msb != r.msb, n := true
    c := a.toNat < whole })

def combine (f : Flags) (a value : Byte) : AluOp → Except Fault (Byte × Flags)
  | .add => add f a value false
  | .adc => add f a value f.c
  | .sub => sub f a value false
  | .sbc => sub f a value f.c
  | .and => .ok (Alu.and f a value)
  | .xor => .ok (Alu.xor f a value)
  | .or => .ok (Alu.or f a value)
  | .cp => do
    let (_, f) ← sub f a value false
    return (a, f)

theorem ofNat_toNat_add {w : Nat} (a b : BitVec w) : BitVec.ofNat w (a.toNat + b.toNat) = a + b := by
  rw [BitVec.ofNat_add, BitVec.ofNat_toNat, BitVec.ofNat_toNat, BitVec.setWidth_eq, BitVec.setWidth_eq]

/-- A sum of two digits and a carry shows past 15 in bit 4. -/
theorem testBit_four {n : Nat} (h : n < 32) : n.testBit 4 = decide (15 < n) := by
  revert n
  decide

section
variable (f : Flags)

theorem inc_eq (a : Byte) : inc f a = .ok (Alu.inc f a) := by
  have hdigits : a.toNat % 16 + 1 < 2 ^ 8 := by omega
  have hbit : (a.toNat % 16 + 1).testBit 4 = decide (15 < a.toNat % 16 + 1) := testBit_four (by omega)
  rw [inc, sum_ok hdigits, ok_bind, hbit]
  rfl

theorem add_eq (a b : Byte) (carry : Bool) : add f a b carry = .ok (Alu.add f a b carry) := by
  have hcarry := carry.toNat_le
  have hbytes : a.toNat + b.toNat < 2 ^ 16 := by omega
  have hwhole : a.toNat + b.toNat + carry.toNat < 2 ^ 16 := by omega
  have hdigits : a.toNat % 16 + b.toNat % 16 < 2 ^ 8 := by omega
  have hhalf : a.toNat % 16 + b.toNat % 16 + carry.toNat < 2 ^ 8 := by omega
  have hr : BitVec.ofNat 8 (a.toNat + b.toNat + carry.toNat) = a + b + BitVec.ofNat 8 carry.toNat := by
    rw [BitVec.ofNat_add, ofNat_toNat_add]
  rw [add, sum_ok hbytes, ok_bind, sum_ok hwhole, ok_bind, sum_ok hdigits, ok_bind, sum_ok hhalf, ok_bind, hr]
  rfl

theorem sub_eq (a b : Byte) (borrow : Bool) : sub f a b borrow = .ok (Alu.sub f a b borrow) := by
  have hborrow := borrow.toNat_le
  have hhalf : b.toNat % 16 + borrow.toNat < 2 ^ 8 := by omega
  have hwhole : b.toNat + borrow.toNat < 2 ^ 16 := by omega
  rw [sub, sum_ok hhalf, ok_bind, sum_ok hwhole, ok_bind]
  rfl

theorem addWord_eq (a b : Word) : addWord f a b = .ok (Alu.addWord f a b) := by
  have hwhole : a.toNat + b.toNat < 2 ^ 32 := by omega
  have hhalf : a.toNat % 4096 + b.toNat % 4096 < 2 ^ 16 := by omega
  rw [addWord, sum_ok hwhole, ok_bind, sum_ok hhalf, ok_bind, ofNat_toNat_add]
  rfl

theorem adcWord_eq (a b : Word) : adcWord f a b = .ok (Alu.adcWord f a b) := by
  have hcarry := f.c.toNat_le
  have hwords : a.toNat + b.toNat < 2 ^ 32 := by omega
  have hwhole : a.toNat + b.toNat + f.c.toNat < 2 ^ 32 := by omega
  have hdigits : a.toNat % 4096 + b.toNat % 4096 < 2 ^ 32 := by omega
  have hhalf : a.toNat % 4096 + b.toNat % 4096 + f.c.toNat < 2 ^ 32 := by omega
  have hr : BitVec.ofNat 16 (a.toNat + b.toNat + f.c.toNat) = a + b + BitVec.ofNat 16 f.c.toNat := by
    rw [BitVec.ofNat_add, ofNat_toNat_add]
  rw [adcWord, sum_ok hwords, ok_bind, sum_ok hwhole, ok_bind, sum_ok hdigits, ok_bind, sum_ok hhalf, ok_bind, hr]
  rfl

theorem sbcWord_eq (a b : Word) : sbcWord f a b = .ok (Alu.sbcWord f a b) := by
  have hborrow := f.c.toNat_le
  have hhalf : b.toNat % 4096 + f.c.toNat < 2 ^ 32 := by omega
  have hwhole : b.toNat + f.c.toNat < 2 ^ 32 := by omega
  rw [sbcWord, sum_ok hhalf, ok_bind, sum_ok hwhole, ok_bind]
  rfl

theorem combine_eq (a value : Byte) (op : AluOp) : combine f a value op = .ok (op.apply f a value) := by
  cases op with
  | add => exact add_eq f a value false
  | adc => exact add_eq f a value f.c
  | sub => exact sub_eq f a value false
  | sbc => exact sub_eq f a value f.c
  | and | xor | or => rfl
  | cp =>
    rw [combine, sub_eq, ok_bind]
    rfl

end

/-! ## Registers -/

/-- The register of a code; the code of the memory operand has none. -/
def regOfCode (code : BitVec 3) : Except Fault Reg :=
  match Place.ofCode code with
  | .reg r => .ok r
  | .cell => .error (.noRegister code)

def getReg (r : Registers) (code : BitVec 3) : Except Fault Byte := do
  let x ← regOfCode code
  return r.get x

def setReg (r : Registers) (code : BitVec 3) (v : Byte) : Except Fault Registers := do
  let x ← regOfCode code
  return r.set x v

def cellCode : BitVec 3 := 6

theorem ofCode_eq_cell_iff {code : BitVec 3} : Place.ofCode code = .cell ↔ code = cellCode := by
  revert code
  decide

section
variable {code : BitVec 3} {x : Reg} (h : Place.ofCode code = .reg x)
include h

theorem ne_cellCode : code ≠ cellCode := by
  intro hc
  rw [ofCode_eq_cell_iff.mpr hc] at h
  cases h

theorem getReg_eq (r : Registers) : getReg r code = .ok (r.get x) := by
  rw [getReg, regOfCode, h]
  rfl

theorem setReg_eq (r : Registers) (v : Byte) : setReg r code v = .ok (r.set x v) := by
  rw [setReg, regOfCode, h]
  rfl

end

/-! ## Parts of an instruction -/

/-- A part of an instruction's work, which may have a fault instead of a result. -/
abbrev Effect (β : Type) := StateT (Machine β) (Except Fault)

section
variable {β α : Type}

def lift (x : Micro80.Effect β α) : Effect β α := fun m => .ok (x m)

def check (x : Except Fault α) : Effect β α := StateT.lift x

theorem check_ok (v : α) : check (.ok v) = (lift (pure v) : Effect β α) := rfl

end

section
variable {β : Type} [PortBus β] (s : Site)

open Micro80.Effect (regs modifyRegs)

def get (code : BitVec 3) : Effect β Byte :=
  if code = cellCode then lift (Micro80.Effect.get s .cell)
  else do
    let r ← lift regs
    check (getReg r code)

def set (v : Byte) (code : BitVec 3) : Effect β Unit :=
  if code = cellCode then lift (Micro80.Effect.set s v .cell)
  else do
    let r ← lift regs
    let r ← check (setReg r code v)
    lift (modifyRegs fun _ => r)

def update (g : Flags → Byte → Except Fault (Byte × Flags)) (code : BitVec 3) : Effect β Unit :=
  if code = cellCode then do
    let address ← lift (Micro80.Effect.cellAddress s)
    let r ← lift regs
    let (v, f) ← check (g r.f (← lift (Micro80.Effect.read address)))
    lift (modifyRegs ({ · with f }))
    lift (Micro80.Effect.write address v)
  else do
    let r ← lift regs
    let (v, f) ← check (g r.f (← check (getReg r code)))
    let r ← check (setReg { r with f } code v)
    lift (modifyRegs fun _ => r)

theorem get_eq (code : BitVec 3) : (get s code : Effect β Byte) = lift (Micro80.Effect.get s (Place.ofCode code)) := by
  cases h : Place.ofCode code with
  | cell => exact if_pos (ofCode_eq_cell_iff.mp h)
  | reg x =>
    rw [get, if_neg (ne_cellCode h)]
    simp only [getReg_eq h]
    rfl

theorem set_eq (v : Byte) (code : BitVec 3) :
    (set s v code : Effect β Unit) = lift (Micro80.Effect.set s v (Place.ofCode code)) := by
  cases h : Place.ofCode code with
  | cell => exact if_pos (ofCode_eq_cell_iff.mp h)
  | reg x =>
    rw [set, if_neg (ne_cellCode h)]
    simp only [setReg_eq h]
    rfl

theorem update_eq {g : Flags → Byte → Except Fault (Byte × Flags)} {g' : Flags → Byte → Byte × Flags}
    (hg : ∀ f v, g f v = .ok (g' f v)) (code : BitVec 3) :
    (update s g code : Effect β Unit) = lift (Micro80.Effect.update s g' (Place.ofCode code)) := by
  cases h : Place.ofCode code with
  | cell =>
    rw [update, if_pos (ofCode_eq_cell_iff.mp h)]
    simp only [hg]
    rfl
  | reg x =>
    rw [update, if_neg (ne_cellCode h)]
    simp only [getReg_eq h, setReg_eq h, check_ok, hg]
    rfl

end

section
variable {β : Type}

open Micro80.Effect (regs modifyRegs)

def sumPairs (s : Site) (g : Flags → Word → Word → Except Fault (Word × Flags)) (x : Pointer) (src : Pair) :
    Effect β Unit := do
  let r ← lift regs
  let (w, f) ← check (g r.f (r.pointer x) (r.pair s.pointer src))
  lift (modifyRegs fun r => { r with f }.setPointer x w)

def accumulate (op : AluOp) (v : Byte) : Effect β Unit := do
  let r ← lift regs
  let (a, f) ← check (combine r.f r.a v op)
  lift (modifyRegs ({ · with a, f }))

theorem sumPairs_eq (s : Site) {g : Flags → Word → Word → Except Fault (Word × Flags)}
    {g' : Flags → Word → Word → Word × Flags} (hg : ∀ f v w, g f v w = .ok (g' f v w)) (x : Pointer) (src : Pair) :
    (sumPairs s g x src : Effect β Unit) = lift (Action.sumPairs g' s x src) := by
  unfold sumPairs
  simp only [hg]
  rfl

theorem accumulate_eq (op : AluOp) (v : Byte) :
    (accumulate op v : Effect β Unit) = lift (Micro80.Effect.accumulate (op.apply · · v)) := by
  unfold accumulate
  simp only [combine_eq]
  rfl

end

/-! ## Instructions -/

def upperPlace : Action → Option Place
  | .load dst _ | .loadImmediate dst | .increment dst | .decrement dst => some dst
  | .output r | .input r => some (.reg r)
  | _ => none

def lowerPlace : Action → Option Place
  | .load _ src | .combine _ src => some src
  | _ => none

/-- The opcode's fields are the codes of the byte operands that the action names. -/
def Coded (opcode : Byte) (a : Action) : Prop :=
  (∀ p ∈ upperPlace a, p = Place.ofCode (upper opcode)) ∧ ∀ p ∈ lowerPlace a, p = Place.ofCode (lower opcode)

instance (opcode : Byte) (a : Action) : Decidable (Coded opcode a) := inferInstanceAs (Decidable (_ ∧ _))

theorem coded_of_slot {p : Page} {opcode : Byte} {d : Descriptor} (h : p.slot opcode = .instruction d) :
    Coded opcode d.action := by
  have checked : ∀ o, (p.slot o).all (fun d => Coded o d.action) = true := by
    cases p <;> decide +kernel
  exact of_decide_eq_true (Slot.of_all (checked opcode) h)

section
variable {β : Type} [PortBus β]

open Micro80.Effect (regs immediate modifyRegs)

/-- Performs an action by the fields of its opcode. -/
def perform (s : Site) (opcode : Byte) : Action → Effect β Outcome
  | .load _ _ => do
    let v ← get s (lower opcode)
    set s v (upper opcode)
    return .next
  | .loadImmediate _ => do
    let v ← lift (immediate s)
    set s v (upper opcode)
    return .next
  | .increment _ => do
    update s inc (upper opcode)
    return .next
  | .decrement _ => do
    update s (fun f v => .ok (Alu.dec f v)) (upper opcode)
    return .next
  | .addPair src => do
    sumPairs s addWord s.pointer src
    return .next
  | .addPairCarry src => do
    sumPairs s adcWord .hl src
    return .next
  | .subtractPairCarry src => do
    sumPairs s sbcWord .hl src
    return .next
  | .combine op _ => do
    let v ← get s (lower opcode)
    accumulate op v
    return .next
  | .combineImmediate op => do
    let v ← lift (immediate s)
    accumulate op v
    return .next
  | .output _ => do
    let r ← lift regs
    let v ← check (getReg r (upper opcode))
    lift (Micro80.Effect.output r.c v)
    return .next
  | .input _ => do
    let r ← lift regs
    let v ← lift (Micro80.Effect.input r.c)
    let r ← check (setReg { r with f := r.f.judgeInput v } (upper opcode) v)
    lift (modifyRegs fun _ => r)
    return .next
  | a => lift (a.perform s)

theorem perform_eq {s : Site} {opcode : Byte} {a : Action} (h : Coded opcode a) :
    (perform s opcode a : Effect β Outcome) = lift (a.perform s) := by
  obtain ⟨hupper, hlower⟩ := h
  cases a with
  | load dst src =>
    rw [hupper dst rfl, hlower src rfl]
    simp only [perform, get_eq, set_eq]
    rfl
  | loadImmediate dst =>
    rw [hupper dst rfl]
    simp only [perform, set_eq]
    rfl
  | increment dst =>
    rw [hupper dst rfl, perform, update_eq s inc_eq]
    rfl
  | decrement dst =>
    rw [hupper dst rfl, perform, update_eq s fun _ _ => rfl]
    rfl
  | addPair src =>
    rw [perform, sumPairs_eq s addWord_eq]
    rfl
  | addPairCarry src =>
    rw [perform, sumPairs_eq s adcWord_eq]
    rfl
  | subtractPairCarry src =>
    rw [perform, sumPairs_eq s sbcWord_eq]
    rfl
  | combine op src =>
    rw [hlower src rfl]
    simp only [perform, get_eq, accumulate_eq]
    rfl
  | combineImmediate op =>
    simp only [perform, accumulate_eq]
    rfl
  | output r =>
    simp only [perform, getReg_eq (hupper (.reg r) rfl).symm]
    rfl
  | input r =>
    simp only [perform, setReg_eq (hupper (.reg r) rfl).symm]
    rfl
  | _ => rfl

/-! ## Steps -/

def table (p : Page) : List Slot := (List.range 256).map fun n => p.slot (BitVec.ofNat 8 n)

def entry (p : Page) (index : Nat) : Except Fault Slot :=
  match (table p)[index]? with
  | some slot => .ok slot
  | none => .error (.noEntry index)

/-- The instruction at an address with the last of its opcode bytes, or the byte that has none. -/
def decode (d : Dialect) (address : Word) (b : β) : Except Fault (Except Byte (Instruction × Byte) × β) := do
  let (first, b) := Bus.read b address
  let slot ← entry .base first.toNat
  match d, slot with
  | .z80, .lead page =>
    let (second, b) := Bus.read b (address + 1)
    let slot ← entry page second.toNat
    return ((slot.decode page d second).map (·, second), b)
  | _, slot => return ((slot.decode .base d first).map (·, first), b)

def execute (i : Instruction) (opcode : Byte) : Cpu β → Except Fault (Option Stop × Cpu β)
  | ⟨regs, cycles, dialect, bus⟩ => do
    let start := regs.pc
    let (outcome, ⟨regs, bus⟩) ←
      perform (i.site start) opcode i.descriptor.action ⟨regs.refresh i.page.width, bus⟩
    let cycles ← sum 64 cycles (i.cost outcome)
    return (outcome.stop?, ⟨{ regs with pc := i.target start outcome }, cycles, dialect, bus⟩)

def step : Cpu β → Except Fault (Option Stop × Cpu β)
  | ⟨regs, cycles, dialect, bus⟩ => do
    match ← decode dialect regs.pc bus with
    | (.error opcode, bus) => return (some (.invalid opcode regs.pc), ⟨regs, cycles, dialect, bus⟩)
    | (.ok (i, opcode), bus) => execute i opcode ⟨regs, cycles, dialect, bus⟩

theorem entry_eq (p : Page) (opcode : Byte) : entry p opcode.toNat = .ok (p.slot opcode) := by
  have hget : (table p)[opcode.toNat]? = some (p.slot opcode) := by
    rw [table, List.getElem?_map, List.getElem?_range opcode.isLt, Option.map_some, BitVec.ofNat_toNat,
      BitVec.setWidth_eq]
  rw [entry, hget]

theorem map_fst_decode (slot : Slot) (p : Page) (d : Dialect) (opcode : Byte) :
    ((slot.decode p d opcode).map (·, opcode)).map Prod.fst = slot.decode p d opcode := by
  cases slot.decode p d opcode <;> rfl

theorem slot_of_map_decode {slot : Slot} {p : Page} {d : Dialect} {opcode o : Byte} {i : Instruction}
    (hslot : slot = p.slot opcode) (h : (slot.decode p d opcode).map (·, opcode) = .ok (i, o)) :
    i.page.slot o = .instruction i.descriptor := by
  cases hd : slot.decode p d opcode with
  | error e =>
    rw [hd] at h
    cases h
  | ok j =>
    rw [hd] at h
    cases h
    obtain ⟨hi, hp, -⟩ := Slot.eq_of_decode hd
    rw [hp, ← hslot, hi]

/-- What decodes is the same, and its opcode is where its page holds it. -/
theorem decode_eq (d : Dialect) (address : Word) (b : β) :
    ∃ x, decode d address b = .ok (x, (Micro80.decode d address b).2) ∧
      x.map Prod.fst = (Micro80.decode d address b).1 ∧
      ∀ i opcode, x = .ok (i, opcode) → i.page.slot opcode = .instruction i.descriptor := by
  unfold decode Micro80.decode
  simp only [entry_eq, ok_bind]
  cases d with
  | i8080 => exact ⟨_, rfl, map_fst_decode .., fun i o => slot_of_map_decode rfl⟩
  | z80 =>
    cases hs : Page.base.slot (Bus.read b address).1 with
    | lead p => exact ⟨_, rfl, map_fst_decode .., fun i o => slot_of_map_decode rfl⟩
    | vacant | instruction e => exact ⟨_, rfl, map_fst_decode .., fun i o => slot_of_map_decode hs.symm⟩

/-- A step that has been taken, unless the counter is past its 64 bits. -/
def fit (taken : Option Stop × Cpu β) : Except Fault (Option Stop × Cpu β) :=
  if taken.2.cycles < 2 ^ 64 then .ok taken else .error (.overflow 64 taken.2.cycles)

theorem execute_eq {i : Instruction} {opcode : Byte} (h : i.page.slot opcode = .instruction i.descriptor) (c : Cpu β) :
    execute i opcode c = fit (c.execute i) := by
  have hp := perform_eq (β := β) (s := i.site c.regs.pc) (coded_of_slot h)
  obtain ⟨regs, cycles, dialect, bus⟩ := c
  simp only at hp
  simp only [execute, hp, lift, ok_bind, Cpu.execute]
  generalize i.descriptor.action.perform (i.site regs.pc) ⟨regs.refresh i.page.width, bus⟩ = performed
  obtain ⟨outcome, regs', bus'⟩ := performed
  by_cases hfits : cycles + i.cost outcome < 2 ^ 64
  · rw [sum_ok hfits, ok_bind, fit, if_pos hfits]
    rfl
  · rw [sum_overflow (Nat.not_lt.mp hfits), fit, if_neg hfits]
    rfl

/-- The counter is all that can overflow. -/
theorem step_eq_fit {c : Cpu β} (h : c.cycles < 2 ^ 64) : step c = fit c.step := by
  obtain ⟨x, hx, hfst, hslot⟩ := decode_eq c.dialect c.regs.pc c.bus
  rcases c.invalid_or_execute with ⟨opcode, hd, hs⟩ | ⟨i, hd, hs⟩
  · have hstep : step c = .ok c.step := by
      rw [hd] at hfst
      cases x with
      | error e =>
        cases hfst
        rw [hs, step, hx]
        rfl
      | ok found => cases hfst
    rw [hstep, fit, if_pos]
    rw [hs]
    exact h
  · rw [hd] at hfst
    cases x with
    | error e => cases hfst
    | ok found =>
      cases hfst
      rw [hs, ← execute_eq (hslot _ _ rfl), step, hx]
      rfl

theorem step_overflow {c : Cpu β} (h : c.cycles < 2 ^ 64) (hfull : 2 ^ 64 ≤ c.step.2.cycles) :
    step c = .error (.overflow 64 c.step.2.cycles) := by
  rw [step_eq_fit h, fit, if_neg (Nat.not_lt.mpr hfull)]

/-- With 24 cycles to spare, no check fails and the checks change nothing. -/
theorem step_faultless {c : Cpu β} (h : c.cycles ≤ 2 ^ 64 - 24) : step c = .ok c.step := by
  have hstep := c.cycles_step
  have hfits : c.step.2.cycles < 2 ^ 64 := by
    split at hstep <;> omega
  rw [step_eq_fit (by omega), fit, if_pos hfits]

/-- The dearest instruction takes the counter to the top, and not past it. -/
theorem step_faultless_dearest :
    let c : Cpu Flat := ⟨{}, 2 ^ 64 - 24, .z80, { memory := Memory.zero.load 0 [0xDD, 0x34, 0x00] }⟩
    c.cycles ≤ 2 ^ 64 - 24 ∧ step c = .ok c.step ∧ c.step.2.cycles = 2 ^ 64 - 1 := by
  intro c
  have hcycles : c.cycles ≤ 2 ^ 64 - 24 := Nat.le_refl _
  exact ⟨hcycles, step_faultless hcycles, by decide +kernel⟩

end

end Micro80.Guarded
