/-
  Micro80.State.Registers — the register file. The main registers are kept as bytes and
  seen in pairs, high byte first; the alternates, the index registers, the stack pointer
  and the program counter are words.

  A byte reads back what was written to it (`get_set`), and so does the pair HL (`hl_setHl`).
  The refresh register counts modulo 128 (`toNat_refresh`).
-/

import Micro80.State.Flags

namespace Micro80

structure Registers where
  a : Byte := 0
  f : Flags := {}
  b : Byte := 0
  c : Byte := 0
  d : Byte := 0
  e : Byte := 0
  h : Byte := 0
  l : Byte := 0
  afAlt : Word := 0
  bcAlt : Word := 0
  deAlt : Word := 0
  hlAlt : Word := 0
  ix : Word := 0
  iy : Word := 0
  sp : Word := 0
  pc : Word := 0
  i : Byte := 0
  r : Byte := 0
  iff1 : Bool := false
  iff2 : Bool := false
  im : Byte := 0
  deriving DecidableEq, Repr

namespace Registers

def af (r : Registers) : Word := Word.ofBytes r.a r.f.toByte

def bc (r : Registers) : Word := Word.ofBytes r.b r.c

def de (r : Registers) : Word := Word.ofBytes r.d r.e

def hl (r : Registers) : Word := Word.ofBytes r.h r.l

def setAf (r : Registers) (w : Word) : Registers := { r with a := w.high, f := Flags.ofByte w.low }

def setBc (r : Registers) (w : Word) : Registers := { r with b := w.high, c := w.low }

def setDe (r : Registers) (w : Word) : Registers := { r with d := w.high, e := w.low }

def setHl (r : Registers) (w : Word) : Registers := { r with h := w.high, l := w.low }

/-- The refresh register after `n` opcode fetches: the low seven bits count, bit 7 stays. -/
def refresh (r : Registers) (n : Nat) : Registers :=
  { r with r := (r.r &&& 0x80) ||| ((r.r + BitVec.ofNat 8 n) &&& 0x7F) }

theorem toNat_refresh (r : Registers) (n : Nat) :
    (r.refresh n).r.toNat = 128 * (r.r.toNat / 128) + (r.r.toNat + n) % 128 := by
  have top : ∀ x : Byte, (x &&& 0x80).toNat = 128 * (x.toNat / 128) := by decide +kernel
  have rest : ∀ x : Byte, (x &&& 0x7F).toNat = x.toNat % 128 := by decide +kernel
  have apart : (r.r &&& 0x80) &&& ((r.r + BitVec.ofNat 8 n) &&& 0x7F) = 0 := by
    rw [BitVec.and_comm (r.r + _), BitVec.and_assoc, ← BitVec.and_assoc 0x80,
      show (0x80 : Byte) &&& 0x7F = 0#8 by decide, BitVec.zero_and, BitVec.and_zero]
    rfl
  have hr := r.r.isLt
  unfold refresh
  rw [← BitVec.add_eq_or_of_and_eq_zero _ _ apart, BitVec.toNat_add, top, rest, BitVec.toNat_add, BitVec.toNat_ofNat]
  omega

theorem refresh_refresh (r : Registers) (m n : Nat) : (r.refresh m).refresh n = r.refresh (m + n) := by
  have h : ((r.refresh m).refresh n).r = (r.refresh (m + n)).r := by
    apply BitVec.eq_of_toNat_eq
    rw [toNat_refresh, toNat_refresh, toNat_refresh]
    omega
  exact congrArg (fun v => { r with r := v }) h

@[simp] theorem refresh_zero (r : Registers) : r.refresh 0 = r := by
  have h : (r.refresh 0).r = r.r := by
    apply BitVec.eq_of_toNat_eq
    rw [toNat_refresh]
    omega
  exact congrArg (fun v => { r with r := v }) h

end Registers

/-! ## Registers by name -/

inductive Reg where
  | b | c | d | e | h | l | a
  deriving DecidableEq, Repr

inductive Pair where
  | bc | de | hl | sp | af
  deriving DecidableEq, Repr

namespace Pair

/-- A two-bit code where the fourth pair is the stack pointer. -/
def ofCode : BitVec 2 → Pair
  | 0 => bc | 1 => de | 2 => hl | 3 => sp

/-- A two-bit code where the fourth pair is the accumulator with the flags. -/
def ofStackCode : BitVec 2 → Pair
  | 0 => bc | 1 => de | 2 => hl | 3 => af

end Pair

/-- The pair that an instruction means by HL: itself, or the index register of its page. -/
inductive Pointer where
  | hl | ix | iy
  deriving DecidableEq, Repr

namespace Registers

def get (r : Registers) : Reg → Byte
  | .b => r.b | .c => r.c | .d => r.d | .e => r.e | .h => r.h | .l => r.l | .a => r.a

def set (r : Registers) (x : Reg) (v : Byte) : Registers :=
  match x with
  | .b => { r with b := v }
  | .c => { r with c := v }
  | .d => { r with d := v }
  | .e => { r with e := v }
  | .h => { r with h := v }
  | .l => { r with l := v }
  | .a => { r with a := v }

def pointer (r : Registers) : Pointer → Word
  | .hl => r.hl
  | .ix => r.ix
  | .iy => r.iy

def setPointer (r : Registers) (x : Pointer) (w : Word) : Registers :=
  match x with
  | .hl => r.setHl w
  | .ix => { r with ix := w }
  | .iy => { r with iy := w }

def pair (r : Registers) (x : Pointer) : Pair → Word
  | .bc => r.bc
  | .de => r.de
  | .hl => r.pointer x
  | .sp => r.sp
  | .af => r.af

def setPair (r : Registers) (x : Pointer) (p : Pair) (w : Word) : Registers :=
  match p with
  | .bc => r.setBc w
  | .de => r.setDe w
  | .hl => r.setPointer x w
  | .sp => { r with sp := w }
  | .af => r.setAf w

theorem hl_setHl (r : Registers) (w : Word) : (r.setHl w).hl = w := Word.ofBytes_high_low w

@[simp] theorem get_set (r : Registers) (x : Reg) (v : Byte) : (r.set x v).get x = v := by
  cases x <;> rfl

end Registers

end Micro80
