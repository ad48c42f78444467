/-
  Micro80.Proofs.DigitRotation — the two rotations of hexadecimal digits through the
  accumulator, cell after cell. The accumulator's low digit enters the cell at HL at one end
  and the digit at the other end comes out into the accumulator, which takes it to the next
  cell (`Effect.sweep`). So a block of cells is a number that is shifted by one digit, and
  the accumulator holds what the shift carries out; no cell of a block that memory has room
  for comes twice.

  Proved, on flat memory, for every state and every block of at most 65536 cells:
  - `rotateDigits_block`: rotating left upward through the block multiplies its number by 16
    and adds the accumulator's digit; rotating right downward through it restores memory
    and the accumulator. No other cell is written, and every rotation judges the accumulator.
-/

import Micro80.Proofs.Flat
import Micro80.Proofs.Shift

namespace Micro80

open Bus (Flat)

/-! ## Digits -/

/-- Two bytes of which one has only a high digit and the other only a low one. -/
theorem toNat_or_digits {x y : Byte} (hx : x.toNat % 16 = 0) (hy : y.toNat < 16) :
    (x ||| y).toNat = x.toNat + y.toNat := by
  have hsplit : x.toNat = 2 ^ 4 * (x.toNat / 16) := by omega
  rw [BitVec.toNat_or, hsplit, ← Nat.two_pow_add_eq_or_of_lt hy]

section
variable (a v : Byte)

theorem toNat_shiftLeft_digit : (v <<< 4).toNat = 16 * (v.toNat % 16) := by
  rw [BitVec.toNat_shiftLeft, Nat.shiftLeft_eq]
  omega

theorem toNat_shiftRight_digit : (v >>> 4).toNat = v.toNat / 16 := by
  rw [BitVec.toNat_ushiftRight, Nat.shiftRight_eq_div_pow]

theorem toNat_lowDigit : (a &&& 0x0F).toNat = a.toNat % 16 := by
  rw [BitVec.toNat_and]
  exact Nat.and_two_pow_sub_one_eq_mod _ 4

theorem toNat_highDigit : (a &&& 0xF0).toNat = 16 * (a.toNat / 16) := by
  revert a
  decide +kernel

end

/-- The new cell and the digit that comes out of it, the accumulator's digit entering below. -/
def turnLeft (a v : Byte) : Byte × Byte := ((v <<< 4) ||| (a &&& 0x0F), v >>> 4)

/-- The same with the accumulator's digit entering above. -/
def turnRight (a v : Byte) : Byte × Byte := ((a <<< 4) ||| (v >>> 4), v &&& 0x0F)

def YieldsDigit (turn : Byte → Byte → Byte × Byte) : Prop := ∀ a v, (turn a v).2.toNat < 16

section
variable (a v : Byte)

theorem yieldsDigit_turnLeft : YieldsDigit turnLeft := by
  intro a v
  have hv := v.isLt
  rw [turnLeft, toNat_shiftRight_digit]
  omega

theorem yieldsDigit_turnRight : YieldsDigit turnRight := by
  intro a v
  rw [turnRight, toNat_lowDigit]
  omega

theorem value_turnLeft :
    16 * v.toNat + a.toNat % 16 = (turnLeft a v).1.toNat + 2 ^ 8 * (turnLeft a v).2.toNat := by
  have hv := v.isLt
  have hhigh := toNat_shiftLeft_digit v
  have hlow := toNat_lowDigit a
  rw [turnLeft, toNat_or_digits (by omega) (by omega), toNat_shiftRight_digit]
  omega

theorem value_turnRight :
    2 ^ 8 * (a.toNat % 16) + v.toNat = 16 * (turnRight a v).1.toNat + (turnRight a v).2.toNat := by
  have hv := v.isLt
  have hhigh := toNat_shiftLeft_digit a
  have hlow := toNat_shiftRight_digit v
  rw [turnRight, toNat_or_digits (by omega) (by omega), toNat_lowDigit]
  omega

end

/-! ## One cell -/

def Machine.turnAt (turn : Byte → Byte → Byte × Byte) (m : Machine Flat) (x : Word) : Machine Flat :=
  (Action.rotateDigits turn ⟨m.regs.setHl x, m.bus⟩).2

namespace Machine

variable {turn : Byte → Byte → Byte × Byte} (m : Machine Flat) (x : Word)

theorem memory_turnAt :
    (m.turnAt turn x).bus.memory = m.bus.memory.set x (turn m.regs.a (m.bus.memory.get x)).1 := by
  show m.bus.memory.set (m.regs.setHl x).hl (turn m.regs.a (m.bus.memory.get (m.regs.setHl x).hl)).1 = _
  rw [Registers.hl_setHl]

theorem a_turnAt (hturn : YieldsDigit turn) :
    (m.turnAt turn x).regs.a.toNat = 16 * (m.regs.a.toNat / 16) + (turn m.regs.a (m.bus.memory.get x)).2.toNat := by
  have hhigh := toNat_highDigit m.regs.a
  show ((m.regs.a &&& 0xF0) ||| (turn m.regs.a (m.bus.memory.get (m.regs.setHl x).hl)).2).toNat = _
  rw [Registers.hl_setHl, toNat_or_digits (by omega) (hturn ..), hhigh]

/-! ## Cell after cell -/

def turnEach (turn : Byte → Byte → Byte × Byte) (m : Machine Flat) (as : List Word) : Machine Flat :=
  as.foldl (turnAt turn) m

theorem turnEach_cons (as : List Word) : turnEach turn m (x :: as) = turnEach turn (m.turnAt turn x) as := rfl

section
variable {as : List Word}

theorem get_turnEach_of_not_mem {x : Word} (hx : x ∉ as) :
    (turnEach turn m as).bus.memory.get x = m.bus.memory.get x := by
  induction as generalizing m with
  | nil => rfl
  | cons a as ih =>
    rw [List.mem_cons, not_or] at hx
    rw [turnEach_cons, ih _ hx.2, memory_turnAt, Memory.get_set_of_ne _ _ (Ne.symm hx.1)]

theorem highDigit_turnEach (hturn : YieldsDigit turn) :
    (turnEach turn m as).regs.a.toNat / 16 = m.regs.a.toNat / 16 := by
  induction as generalizing m with
  | nil => rfl
  | cons a as ih =>
    have ha := m.a_turnAt a hturn
    have hdigit := hturn m.regs.a (m.bus.memory.get a)
    rw [turnEach_cons, ih]
    omega

/-- A cell that is visited first and not again holds what the visit left. -/
theorem get_turnEach_cons (hx : x ∉ as) :
    (turnEach turn m (x :: as)).bus.memory.get x = (turn m.regs.a (m.bus.memory.get x)).1 := by
  rw [turnEach_cons, get_turnEach_of_not_mem _ hx, memory_turnAt, Memory.get_set_self]

end

variable (h : Word)

/-- Upward and to the left: the block's number times 16, with the digit that is carried in and
    the digit that is carried out. -/
theorem number_turnLeft {n : Nat} (hn : n ≤ 65536) :
    let m' := turnEach turnLeft m (h.cells n)
    16 * (binary 8).number (m.bus.memory.slice h n) + m.regs.a.toNat % 16 =
      (binary 8).number (m'.bus.memory.slice h n) + 256 ^ n * (m'.regs.a.toNat % 16) := by
  induction n generalizing m h with
  | zero => simp [turnEach, Word.cells, Memory.slice, Radix.number]
  | succ n ih =>
    have hapart := h.not_mem_cells_succ hn
    have hvalue := value_turnLeft m.regs.a (m.bus.memory.get h)
    have hdigit := yieldsDigit_turnLeft m.regs.a (m.bus.memory.get h)
    have ha := m.a_turnAt h yieldsDigit_turnLeft
    have hrest := ih (m.turnAt turnLeft h) (h + 1) (by omega)
    rw [memory_turnAt, Memory.slice_set_of_not_mem _ _ hapart,
      show (m.turnAt turnLeft h).regs.a.toNat % 16 = (turnLeft m.regs.a (m.bus.memory.get h)).2.toNat by omega] at hrest
    intro m'
    have hm' : m' = turnEach turnLeft m (h :: (h + 1).cells n) := congrArg _ (h.cells_succ n)
    rw [Memory.slice_succ, Memory.slice_succ, hm', get_turnEach_cons m h hapart]
    exact (binary 8).scaled_cons hvalue hrest

/-- Downward and to the right: the block's number by 16, below the digit that is carried in, with
    the digit that remains. -/
theorem number_turnRight {n : Nat} (hn : n ≤ 65536) :
    let m' := turnEach turnRight m (h.cells n).reverse
    256 ^ n * (m.regs.a.toNat % 16) + (binary 8).number (m.bus.memory.slice h n) =
      16 * (binary 8).number (m'.bus.memory.slice h n) + m'.regs.a.toNat % 16 := by
  induction n generalizing m with
  | zero => simp [turnEach, Word.cells, Memory.slice, Radix.number]
  | succ n ih =>
    let last := h + BitVec.ofNat 16 n
    have hapart : last ∉ h.cells n := h.not_mem_cells_end hn
    have hvalue := value_turnRight m.regs.a (m.bus.memory.get last)
    have hdigit := yieldsDigit_turnRight m.regs.a (m.bus.memory.get last)
    have ha := m.a_turnAt last yieldsDigit_turnRight
    have hrest := ih (m.turnAt turnRight last) (by omega)
    rw [memory_turnAt, Memory.slice_set_of_not_mem _ _ hapart,
      show (m.turnAt turnRight last).regs.a.toNat % 16 = (turnRight m.regs.a (m.bus.memory.get last)).2.toNat by omega]
      at hrest
    intro m'
    have hm' : m' = turnEach turnRight m (last :: (h.cells n).reverse) := by
      rw [← List.reverse_concat, ← Word.cells_concat]
    rw [Memory.slice_concat, Memory.slice_concat, hm', get_turnEach_cons m last (by rwa [List.mem_reverse])]
    exact (binary 8).divided_concat (Memory.length_slice ..) (Memory.length_slice ..) hvalue hrest

/-- What goes up through a block and comes back down leaves memory and the accumulator as they were. -/
theorem turnEach_right_left {n : Nat} (hn : n ≤ 65536) :
    let m' := turnEach turnRight (turnEach turnLeft m (h.cells n)) (h.cells n).reverse
    m'.bus.memory = m.bus.memory ∧ m'.regs.a = m.regs.a := by
  intro m'
  let left := turnEach turnLeft m (h.cells n)
  have hup := m.number_turnLeft h hn
  have hdown := left.number_turnRight h hn
  obtain ⟨hnumber, (hlow : m'.regs.a.toNat % 16 = m.regs.a.toNat % 16)⟩ :=
    scaled_divided (Nat.mod_lt _ (by decide)) (Nat.mod_lt _ (by decide)) hup hdown
  have hblock : m'.bus.memory.slice h n = m.bus.memory.slice h n :=
    number_binary_inj ((Memory.length_slice ..).trans (Memory.length_slice ..).symm) hnumber
  have hhigh : m'.regs.a.toNat / 16 = m.regs.a.toNat / 16 :=
    (left.highDigit_turnEach yieldsDigit_turnRight).trans (m.highDigit_turnEach yieldsDigit_turnLeft)
  refine ⟨Memory.ext_get fun x => ?_, BitVec.eq_of_toNat_eq (by omega)⟩
  by_cases hx : x ∈ h.cells n
  · obtain ⟨k, hk, rfl⟩ := Word.mem_cells.mp hx
    exact Memory.slice_eq_iff.mp hblock k hk
  · have hx' : x ∉ (h.cells n).reverse := by rwa [List.mem_reverse]
    exact (left.get_turnEach_of_not_mem hx').trans (m.get_turnEach_of_not_mem hx)

end Machine

/-! ## The instructions -/

namespace Effect

section
variable {β : Type}

def sweep (e : Effect β Outcome) : List Word → Effect β Unit
  | [] => pure ()
  | a :: as => do
    modifyRegs (·.setHl a)
    let _ ← e
    sweep e as

end

theorem sweep_rotateDigitsLeft (s : Site) (as : List Word) (m : Machine Flat) :
    (sweep (Action.rotateDigitsLeft.perform s) as m).2 = m.turnEach turnLeft as := by
  induction as generalizing m with
  | nil => rfl
  | cons a as ih => exact ih (m.turnAt turnLeft a)

theorem sweep_rotateDigitsRight (s : Site) (as : List Word) (m : Machine Flat) :
    (sweep (Action.rotateDigitsRight.perform s) as m).2 = m.turnEach turnRight as := by
  induction as generalizing m with
  | nil => rfl
  | cons a as ih => exact ih (m.turnAt turnRight a)

/-- Digits go through a block of cells to the left and back to the right. -/
theorem rotateDigits_block (s : Site) (m : Machine Flat) (h : Word) {n : Nat} (hpos : 1 ≤ n) (hn : n ≤ 65536) :
    let number := fun (m : Machine Flat) => (binary 8).number (m.bus.memory.slice h n)
    let left := (sweep (Action.rotateDigitsLeft.perform s) (h.cells n) m).2
    let right := (sweep (Action.rotateDigitsRight.perform s) (h.cells n).reverse left).2
    number left = (16 * number m + m.regs.a.toNat % 16) % 16 ^ (2 * n) ∧
      left.regs.a.toNat / 16 = m.regs.a.toNat / 16 ∧
      left.regs.a.toNat % 16 = number m / 16 ^ (2 * n - 1) ∧
      (∀ x ∉ h.cells n, left.bus.memory.get x = m.bus.memory.get x) ∧
      right.bus.memory = m.bus.memory ∧ right.regs.a = m.regs.a ∧
      ∀ act ∈ [Action.rotateDigitsLeft, .rotateDigitsRight], ∀ before : Machine Flat,
        let after := (act.perform s before).2
        (∀ x ≠ before.regs.hl, after.bus.memory.get x = before.bus.memory.get x) ∧
          after.regs.f = { before.regs.f with
            s := after.regs.a.msb, z := after.regs.a == 0, pv := Flags.evenParity after.regs.a,
            h := false, n := false } := by
  intro number left right
  have hleft : left = m.turnEach turnLeft (h.cells n) := sweep_rotateDigitsLeft ..
  have hright : right = (m.turnEach turnLeft (h.cells n)).turnEach turnRight (h.cells n).reverse := by
    rw [← hleft]
    exact sweep_rotateDigitsRight ..
  have hbalance : 16 * number m + m.regs.a.toNat % 16 = number left + 256 ^ n * (left.regs.a.toNat % 16) := by
    rw [hleft]
    exact m.number_turnLeft h hn
  have hpow : 16 ^ (2 * n) = 256 ^ n := pow_mul 16 2 n
  have hlt : number left < 256 ^ n := by
    have hslice := number_binary_lt (left.bus.memory.slice h n)
    rwa [Memory.length_slice] at hslice
  obtain ⟨hmemory, ha⟩ := m.turnEach_right_left h hn
  refine ⟨?number, ?high, ?low, ?others, by rw [hright, hmemory], by rw [hright, ha], ?flags⟩
  case number => rw [hbalance, hpow, Nat.add_mul_mod_self_left, Nat.mod_eq_of_lt hlt]
  case high =>
    rw [hleft]
    exact m.highDigit_turnEach yieldsDigit_turnLeft
  case low =>
    have hunit : 256 ^ n = 16 * 16 ^ (2 * n - 1) := by
      rw [← hpow, ← pow_succ', show 2 * n - 1 + 1 = 2 * n by omega]
    have hV : number m = number left / 16 + 16 ^ (2 * n - 1) * (left.regs.a.toNat % 16) := by
      rw [hunit, Nat.mul_assoc] at hbalance
      omega
    rw [hV, Nat.add_mul_div_left _ _ (by positivity), Nat.div_eq_of_lt (by omega), Nat.zero_add]
  case others =>
    intro x hx
    rw [hleft]
    exact m.get_turnEach_of_not_mem hx
  case flags =>
    intro act hact before
    rw [List.mem_cons, List.mem_singleton] at hact
    rcases hact with rfl | rfl
    · exact ⟨fun x hx => Memory.get_set_of_ne _ _ (Ne.symm hx), rfl⟩
    · exact ⟨fun x hx => Memory.get_set_of_ne _ _ (Ne.symm hx), rfl⟩

/-- Two cells across the top of memory: 5678h and a digit 4 go to 6784h and a digit 5, and back. -/
theorem rotateDigits_block_wraps :
    let s : Site := ⟨0, 2, 2, .hl⟩
    let m : Machine Flat := ⟨{ a := 0x34, f := { h := true, c := true } }, ({} : Flat).load 0xFFFF [0x78, 0x56]⟩
    let left := (sweep (Action.rotateDigitsLeft.perform s) (Word.cells 0xFFFF 2) m).2
    let right := (sweep (Action.rotateDigitsRight.perform s) (Word.cells 0xFFFF 2).reverse left).2
    1 ≤ 2 ∧ 2 ≤ 65536 ∧ (binary 8).number (m.bus.memory.slice 0xFFFF 2) = 0x5678 ∧
      (binary 8).number (left.bus.memory.slice 0xFFFF 2) = 0x6784 ∧
      left.regs.a.toNat / 16 = 3 ∧ left.regs.a.toNat % 16 = 5 ∧
      right.bus.memory = m.bus.memory ∧ right.regs.a = 0x34 := by
  intro s m left right
  have hbytes : m.bus.memory.slice 0xFFFF 2 = [0x78, 0x56] := Memory.slice_load _ _ (by decide)
  have hV : (binary 8).number (m.bus.memory.slice 0xFFFF 2) = 0x5678 := by
    rw [hbytes]
    decide
  obtain ⟨hnumber, hhigh, hlow, -, hmemory, ha, -⟩ := rotateDigits_block s m 0xFFFF (n := 2) (by decide) (by decide)
  simp only [hV] at hnumber hlow
  exact ⟨by decide, by decide, hV, hnumber.trans (by decide), hhigh.trans (by decide),
    hlow.trans (by decide), hmemory, ha⟩

end Effect

end Micro80
