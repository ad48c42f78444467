/-
  Micro80.Proofs.Operands — the meaning of the Zilog text of the instructions that move
  or combine data. A name stands for the register or pair called so, an operand for a
  place where a value lives (`locate`), and a form for a change of registers, memory and
  ports (`effect`): none of it looks at an opcode, a page or an action.

  Values are words. A byte is a word below 256, and a place for bytes keeps the low byte
  of what is put there, so that sums and differences are modulo the destination's width.

  An instruction that ends in one place is described by the places of its operands and
  what they hold (`effect_eq`, `effect_byte`, `effect_pair`, `effect_exchange`).
-/

import Micro80.Proofs.Flat
import Micro80.Proofs.Form
import Micro80.State.Assign

namespace Micro80

open Bus (Flat)
open Encoding (regName pairName pairOperand aluName)

/-! ## Registers by name -/

namespace Registers

/-- What the register or pair of a Zilog name holds. -/
def named? (r : Registers) : String → Option Word
  | "a" => some (r.a.setWidth 16)
  | "b" => some (r.b.setWidth 16)
  | "c" => some (r.c.setWidth 16)
  | "d" => some (r.d.setWidth 16)
  | "e" => some (r.e.setWidth 16)
  | "h" => some (r.h.setWidth 16)
  | "l" => some (r.l.setWidth 16)
  | "i" => some (r.i.setWidth 16)
  | "r" => some (r.r.setWidth 16)
  | "af" => some r.af
  | "bc" => some r.bc
  | "de" => some r.de
  | "hl" => some r.hl
  | "sp" => some r.sp
  | "ix" => some r.ix
  | "iy" => some r.iy
  | "af'" => some r.afAlt
  | _ => none

def setNamed? (r : Registers) (name : String) (w : Word) : Option Registers :=
  r.assign? (if name = "af'" then "af_alt" else name) w.toNat

end Registers

def Operand.isPair (o : Operand) : Bool :=
  o.kind = .register && ["af", "bc", "de", "hl", "sp", "ix", "iy", "af'"].contains o.name

/-! ## Places -/

inductive Location where
  | register (name : String)
  | cell (address : Word)
  | cells (address : Word)
  | port (number : Byte)
  | literal (value : Word)

namespace Location

def fetch (m : Machine Flat) : Location → Option Word
  | register name => m.regs.named? name
  | cell a => some ((m.bus.memory.get a).setWidth 16)
  | cells a => some (m.bus.memory.getWord a)
  | port p => some ((m.bus.getInput p).setWidth 16)
  | literal w => some w

def store (m : Machine Flat) (w : Word) : Location → Option (Machine Flat)
  | register name => (m.regs.setNamed? name w).map (⟨·, m.bus⟩)
  | cell a => some ⟨m.regs, m.bus.withMemory (m.bus.memory.set a w.low)⟩
  | cells a => some ⟨m.regs, m.bus.withMemory (m.bus.memory.setWord a w)⟩
  | port p => some ⟨m.regs, { m.bus with outputs := m.bus.outputs.push (p, w.low) }⟩
  | literal _ => none

end Location

/-! ## Forms -/

namespace Form

/-- Memory is a word where the other operand is a pair. -/
def isWide (f : Form) : Bool := f.dst.isPair || f.src.isPair

def isDisplaced (f : Form) : Bool := f.dst.kind = .indexed || f.src.kind = .indexed

def memory (f : Form) (a : Word) : Location := if f.isWide then .cells a else .cell a

/-- The place of an operand of `f`, its operand bytes beginning at `operands`. -/
def locate (f : Form) (operands : Word) (m : Machine Flat) (o : Operand) : Option Location :=
  match o.kind with
  | .none => some (.literal 0)
  | .register => some (.register o.name)
  | .registerIndirect => if o.name = "c" then some (.port m.regs.c) else (m.regs.named? o.name).map f.memory
  | .indexed => (m.regs.named? o.name).map fun w => f.memory (w.displace (m.bus.memory.get operands))
  | .immediate => some (.literal ((m.bus.memory.get (operands + if f.isDisplaced then 1 else 0)).setWidth 16))
  | .immediateExtended => some (.literal (m.bus.memory.getWord operands))
  | .indirect => some (.port (m.bus.memory.get operands))
  | .extended => some (f.memory (m.bus.memory.getWord operands))
  | .displacement | .condition => none

/-- The destination; operations on the accumulator need not name it. -/
def target (f : Form) : Operand := if f.dst.kind = .none then .register "a" else f.dst

/-- What goes into a destination that holds `x` from a source that holds `y`. -/
def result (mnemonic : String) (carry : Bool) (x y : Word) : Option Word :=
  match mnemonic with
  | "ld" | "in" | "out" => some y
  | "inc" => some (x + 1)
  | "dec" => some (x - 1)
  | "add" => some (x + y)
  | "adc" => some (x + y + BitVec.ofNat 16 carry.toNat)
  | "sub" => some (x - y)
  | "sbc" => some (x - y - BitVec.ofNat 16 carry.toNat)
  | "and" => some (x &&& y)
  | "xor" => some (x ^^^ y)
  | "or" => some (x ||| y)
  | "cp" => some x
  | _ => none

/-- The flags after it, where they are not themselves the destination: those of the
    arithmetic of the destination's width, those of a byte from a device that a register
    names, and those of a byte from the registers I and R. -/
def flags (f : Form) (r : Registers) (x y : Word) : Flags :=
  match f.mnemonic, f.isWide with
  | "inc", false => (Alu.inc r.f x.low).2
  | "dec", false => (Alu.dec r.f x.low).2
  | "add", false => (Alu.add r.f x.low y.low false).2
  | "adc", false => (Alu.add r.f x.low y.low r.f.c).2
  | "sub", false | "cp", false => (Alu.sub r.f x.low y.low false).2
  | "sbc", false => (Alu.sub r.f x.low y.low r.f.c).2
  | "and", false => (Alu.and r.f x.low y.low).2
  | "xor", false => (Alu.xor r.f x.low y.low).2
  | "or", false => (Alu.or r.f x.low y.low).2
  | "add", true => (Alu.addWord r.f x y).2
  | "adc", true => (Alu.adcWord r.f x y).2
  | "sbc", true => (Alu.sbcWord r.f x y).2
  | "in", _ => if f.src = .memoryAt "c" then r.f.judgeInput y.low else r.f
  | "ld", _ => if f.src = .register "i" ∨ f.src = .register "r" then { r.f.judgeLoad y.low with pv := r.iff2 } else r.f
  | _, _ => r.f

/-- What the text of an instruction that moves or combines data says is to happen. -/
def effect (f : Form) (operands : Word) (m : Machine Flat) : Option (Machine Flat) :=
  match f.mnemonic with
  | "push" => do
    let w ← (← f.locate operands m f.dst).fetch m
    (Location.cells (m.regs.sp - 2)).store ⟨{ m.regs with sp := m.regs.sp - 2 }, m.bus⟩ w
  | "pop" => do
    let w ← (Location.cells m.regs.sp).fetch m
    (← f.locate operands m f.dst).store ⟨{ m.regs with sp := m.regs.sp + 2 }, m.bus⟩ w
  | "ex" => do
    let dst ← f.locate operands m f.dst
    let src ← f.locate operands m f.src
    src.store (← dst.store m (← src.fetch m)) (← dst.fetch m)
  | _ => do
    let dst ← f.locate operands m f.target
    let src ← f.locate operands m f.src
    let x ← dst.fetch m
    let y ← src.fetch m
    dst.store ⟨{ m.regs with f := f.flags m.regs x y }, m.bus⟩ (← result f.mnemonic m.regs.f.c x y)

def transfers : List String :=
  ["ld", "inc", "dec", "add", "adc", "sub", "sbc", "and", "xor", "or", "cp", "push", "pop", "in", "out", "ex"]

end Form

/-! ## The names of registers, pairs and places -/

namespace Registers

theorem named?_regName (r : Registers) (x : Reg) : r.named? (regName x) = some ((r.get x).setWidth 16) := by
  cases x <;> rfl

theorem named?_pairName (r : Registers) (x : Pointer) (p : Pair) :
    r.named? (pairName x.name p) = some (r.pair x p) := by
  cases p <;> cases x <;> rfl

theorem setNamed?_regName (r : Registers) (x : Reg) (w : Word) :
    r.setNamed? (regName x) w = some (r.set x w.low) := by
  rw [Word.low_eq_setWidth, ← BitVec.ofNat_toNat]
  cases x <;> rfl

theorem setNamed?_pairName (r : Registers) (x : Pointer) (p : Pair) (w : Word) :
    r.setNamed? (pairName x.name p) w = some (r.setPair x p w) := by
  have h : r.setPair x p w = r.setPair x p (BitVec.ofNat 16 w.toNat) := by rw [BitVec.ofNat_toNat, BitVec.setWidth_eq]
  rw [h]
  cases p <;> cases x <;> rfl

theorem setNamed?_i (r : Registers) (w : Word) : r.setNamed? "i" w = some { r with i := w.low } := by
  rw [Word.low_eq_setWidth, ← BitVec.ofNat_toNat]
  rfl

theorem setNamed?_r (r : Registers) (w : Word) : r.setNamed? "r" w = some { r with r := w.low } := by
  rw [Word.low_eq_setWidth, ← BitVec.ofNat_toNat]
  rfl

theorem setNamed?_afAlt (r : Registers) (w : Word) : r.setNamed? "af'" w = some { r with afAlt := w } := by
  have h : w = BitVec.ofNat 16 w.toNat := by rw [BitVec.ofNat_toNat, BitVec.setWidth_eq]
  exact congrArg (fun v => some { r with afAlt := v }) h.symm

end Registers

namespace Place

def location (p : Place) (s : Site) (m : Machine Flat) : Location :=
  match p with
  | .reg r => .register (regName r)
  | .cell => .cell (s.cell m)

theorem isPair_operand (p : Place) (x : Pointer) : (p.operand x).isPair = false := by
  cases p with
  | reg r => cases r <;> rfl
  | cell => cases x <;> rfl

theorem fetch_location (p : Place) (s : Site) (m : Machine Flat) :
    (p.location s m).fetch m = some ((m.byte s p).setWidth 16) := by
  cases p with
  | reg r => exact Registers.named?_regName m.regs r
  | cell => rfl

theorem store_location (p : Place) (s : Site) (m : Machine Flat) (g : Flags) (w : Word) :
    (p.location s m).store ⟨{ m.regs with f := g }, m.bus⟩ w =
      some (Machine.setByte ⟨{ m.regs with f := g }, m.bus⟩ s w.low p) := by
  cases p with
  | reg r => simp only [location, Location.store, Registers.setNamed?_regName, Option.map_some, Machine.setByte]
  | cell =>
    obtain ⟨start, operands, next, x⟩ := s
    cases x <;> rfl

/-- No byte operand is one of the two registers outside the main file. -/
theorem operand_not_mem (p : Place) (x : Pointer) : p.operand x ∉ [.register "i", .register "r"] := by
  cases p with
  | reg r => cases r <;> simp [operand, regName, Operand.register]
  | cell => cases x <;> simp [operand, Operand.memoryAt, Operand.indexed, Operand.register]

end Place

namespace Location

theorem fetch_pair (m : Machine Flat) (x : Pointer) (p : Pair) :
    (register (pairName x.name p)).fetch m = some (m.regs.pair x p) := by
  unfold fetch
  exact Registers.named?_pairName m.regs x p

theorem store_pair (m : Machine Flat) (x : Pointer) (p : Pair) (w : Word) :
    (register (pairName x.name p)).store m w = some ⟨m.regs.setPair x p w, m.bus⟩ := by
  simp only [store, Registers.setNamed?_pairName, Option.map_some]

end Location

theorem isPair_pairOperand (x : Pointer) (p : Pair) : (pairOperand x.name p).isPair = true := by
  cases p <;> cases x <;> rfl

theorem pairOperand_not_mem (x : Pointer) (p : Pair) : pairOperand x.name p ∉ [.register "i", .register "r"] := by
  cases p <;> cases x <;> decide

/-! ## What forms mean -/

namespace Form

theorem isWide_of_dst {f : Form} {x : Pointer} {p : Pair} (h : f.dst = pairOperand x.name p) : f.isWide = true := by
  simp only [isWide, h, isPair_pairOperand, Bool.true_or]

theorem isWide_of_src {f : Form} {x : Pointer} {p : Pair} (h : f.src = pairOperand x.name p) : f.isWide = true := by
  simp only [isWide, h, isPair_pairOperand, Bool.or_true]

theorem isWide_of_place {f : Form} {p : Place} {x : Pointer} (h : f.dst = p.operand x) (hs : f.src.isPair = false) :
    f.isWide = false := by
  simp only [isWide, h, hs, Place.isPair_operand, Bool.or_self]

theorem locate_pair (f : Form) (operands : Word) (m : Machine Flat) (x : Pointer) (p : Pair) :
    f.locate operands m (pairOperand x.name p) = some (.register (pairName x.name p)) := rfl

theorem locate_immediate {f : Form} (hd : f.isDisplaced = false) (operands : Word) (m : Machine Flat) :
    f.locate operands m .immediate = some (.literal ((m.bus.memory.get operands).setWidth 16)) := by
  have h : operands + 0 = operands := BitVec.add_zero operands
  simp only [locate, Operand.immediate, hd, Bool.false_eq_true, if_false, h]

theorem locate_absolute {f : Form} (hw : f.isWide = true) (operands : Word) (m : Machine Flat) :
    f.locate operands m .absolute = some (.cells (m.bus.memory.getWord operands)) := by
  have h : f.locate operands m .absolute = some (f.memory (m.bus.memory.getWord operands)) := rfl
  rw [h, memory, if_pos hw]

theorem locate_place {f : Form} (hw : f.isWide = false) (s : Site) (m : Machine Flat) (p : Place) :
    f.locate s.operands m (p.operand s.pointer) = some (p.location s m) := by
  obtain ⟨start, operands, next, x⟩ := s
  cases p with
  | reg r => cases r <;> rfl
  | cell =>
    have hm : ∀ a, f.memory a = .cell a := fun a => by simp only [memory, hw, Bool.false_eq_true, if_false]
    cases x <;> exact congrArg some (hm _)

theorem locate_memoryAt (f : Form) (operands : Word) (m : Machine Flat) (x : Pointer) (p : Pair) :
    f.locate operands m (.memoryAt (pairName x.name p)) = some (f.memory (m.regs.pair x p)) := by
  cases p <;> cases x <;> rfl

theorem target_place {f : Form} {p : Place} {x : Pointer} (h : f.dst = p.operand x) : f.target = p.operand x := by
  unfold target
  rw [h]
  cases p with
  | reg r => rfl
  | cell => cases x <;> rfl

/-- All but the stack and the exchanges: the result of the operands goes into the target. -/
theorem effect_eq {f : Form} {operands : Word} {m : Machine Flat} {l k : Location} {x y v : Word}
    (hf : f.mnemonic ∉ ["push", "pop", "ex"]) (hdst : f.locate operands m f.target = some l)
    (hsrc : f.locate operands m f.src = some k) (hx : l.fetch m = some x) (hy : k.fetch m = some y)
    (hv : result f.mnemonic m.regs.f.c x y = some v) :
    f.effect operands m = l.store ⟨{ m.regs with f := f.flags m.regs x y }, m.bus⟩ v := by
  simp only [List.mem_cons, List.not_mem_nil, or_false, not_or] at hf
  unfold effect
  split
  · exact absurd ‹_› hf.1
  · exact absurd ‹_› hf.2.1
  · exact absurd ‹_› hf.2.2
  · simp only [hdst, hsrc, hx, hy, hv, Option.bind_eq_bind, Option.bind_some]

/-- A byte goes into a register or the memory operand. -/
theorem effect_byte {f : Form} {s : Site} {m : Machine Flat} {p : Place} {k : Location} {y v : Word}
    (hf : f.mnemonic ∉ ["push", "pop", "ex"]) (hw : f.isWide = false) (hdst : f.target = p.operand s.pointer)
    (hsrc : f.locate s.operands m f.src = some k) (hy : k.fetch m = some y)
    (hv : result f.mnemonic m.regs.f.c ((m.byte s p).setWidth 16) y = some v) :
    f.effect s.operands m = some (Machine.setByte
      ⟨{ m.regs with f := f.flags m.regs ((m.byte s p).setWidth 16) y }, m.bus⟩ s v.low p) := by
  rw [effect_eq hf (by rw [hdst, locate_place hw]) hsrc (p.fetch_location s m) hy hv, Place.store_location]

/-- A word goes into a pair. -/
theorem effect_pair {f : Form} {operands : Word} {m : Machine Flat} {x : Pointer} {p : Pair} {k : Location}
    {y v : Word} (hf : f.mnemonic ∉ ["push", "pop", "ex"]) (hdst : f.dst = pairOperand x.name p)
    (hsrc : f.locate operands m f.src = some k) (hy : k.fetch m = some y)
    (hv : result f.mnemonic m.regs.f.c (m.regs.pair x p) y = some v) :
    f.effect operands m =
      some ⟨Registers.setPair { m.regs with f := f.flags m.regs (m.regs.pair x p) y } x p v, m.bus⟩ := by
  have ht : f.target = pairOperand x.name p := by
    unfold target
    rw [hdst]
    rfl
  rw [effect_eq hf (by rw [ht, locate_pair]) hsrc (Location.fetch_pair m x p) hy hv, Location.store_pair]

/-- Each of two operands goes into the place of the other. -/
theorem effect_exchange {f : Form} {operands : Word} {m m' : Machine Flat} {l k : Location} {x y : Word}
    (hf : f.mnemonic = "ex") (hdst : f.locate operands m f.dst = some l)
    (hsrc : f.locate operands m f.src = some k) (hx : l.fetch m = some x) (hy : k.fetch m = some y)
    (hm : l.store m y = some m') : f.effect operands m = k.store m' x := by
  simp only [effect, hf, hdst, hsrc, hx, hy, hm, Option.bind_eq_bind, Option.bind_some]

/-- No other load touches the flags. -/
theorem flags_ld {d o : Operand} {r : Registers} {x y : Word} (ho : o ∉ [.register "i", .register "r"]) :
    flags ⟨"ld", d, o⟩ r x y = r.f := by
  simp only [List.mem_cons, List.not_mem_nil, or_false] at ho
  simp only [flags, ho, if_false]

theorem result_aluName (op : AluOp) (f : Flags) (a v : Byte) :
    ∃ w, result (aluName op) f.c (a.setWidth 16) (v.setWidth 16) = some w ∧ w.low = (op.apply f a v).1 := by
  cases op with
  | add => exact ⟨_, rfl, by simp [Word.low_add, AluOp.apply, Alu.add]⟩
  | adc => exact ⟨_, rfl, by simp [Word.low_add, Word.low_ofNat, AluOp.apply, Alu.add]⟩
  | sub => exact ⟨_, rfl, by simp [Word.low_sub, AluOp.apply, Alu.sub]⟩
  | sbc => exact ⟨_, rfl, by simp [Word.low_sub, Word.low_ofNat, AluOp.apply, Alu.sub]⟩
  | and => exact ⟨_, rfl, by simp [Word.low_and, AluOp.apply, Alu.and]⟩
  | xor => exact ⟨_, rfl, by simp [Word.low_xor, AluOp.apply, Alu.xor]⟩
  | or => exact ⟨_, rfl, by simp [Word.low_or, AluOp.apply, Alu.or]⟩
  | cp => exact ⟨_, rfl, by simp [AluOp.apply]⟩

theorem flags_aluName {f : Form} {op : AluOp} (h : f.mnemonic = aluName op) (hw : f.isWide = false)
    (r : Registers) (a v : Byte) : f.flags r (a.setWidth 16) (v.setWidth 16) = (op.apply r.f a v).2 := by
  cases op <;> simp only [flags, h, hw, aluName, Word.low_setWidth, AluOp.apply]

end Form

end Micro80
