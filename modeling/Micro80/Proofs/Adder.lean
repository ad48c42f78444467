/-
  Micro80.Proofs.Adder — one adder for all. Sums and differences of words, the increment, the
  decrement, the negation and the block searches work out their results and flags each in a
  way of its own; the byte adder gives the same (`Alu.add`, `Alu.sub`). Of words it is used
  twice: on the low bytes, and with what they carry on the high ones (`bytewise`).

  Proved, for all flags and operands:
  - `agrees_with_adder`: results and flags are those of the adder, but for the zero flag of a
    word, which both its bytes decide, and the flags that an operation leaves alone.
-/

import Micro80.Execution.Perform

namespace Micro80.Alu

/-- An operation on two words byte by byte: the low bytes with `carry`, and the high ones with
    what those carry. -/
def bytewise (op : Flags → Byte → Byte → Bool → Byte × Flags) (f : Flags) (a b : Word) (carry : Bool) : Word × Flags :=
  let (low, f) := op f a.low b.low carry
  let (high, f) := op f a.high b.high f.c
  (Word.ofBytes high low, f)

/-! ## Words -/

theorem beq_zero_eq_bytes (w : Word) : (w == 0) = (w.high == 0 && w.low == 0) := by
  rw [Bool.eq_iff_iff, Bool.and_eq_true, beq_iff_eq, beq_iff_eq, beq_iff_eq]
  constructor
  · rintro rfl
    exact ⟨rfl, rfl⟩
  · rintro ⟨hhigh, hlow⟩
    rw [← w.ofBytes_high_low, hhigh, hlow]
    rfl

section
variable (f : Flags) (a b : Word)

theorem adcWord_eq_bytewise :
    let r := bytewise add f a b f.c
    adcWord f a b = (r.1, { r.2 with z := r.1.high == 0 && r.1.low == 0 }) := by
  intro r
  let low := add f a.low b.low f.c
  let high := add low.2 a.high b.high low.2.c
  have ha := a.toNat_eq_high_low
  have hb := b.toNat_eq_high_low
  have hcarry : low.2.c.toNat = (a.low.toNat + b.low.toNat + f.c.toNat) / 256 := carry_add ..
  have hr : (adcWord f a b).1 = r.1 := by
    apply BitVec.eq_of_toNat_eq
    rw [toNat_adcWord, show r.1 = Word.ofBytes high.1 low.1 from rfl, Word.toNat_ofBytes, toNat_add, toNat_add]
    omega
  have hs : (adcWord f a b).1.msb = high.1.msb := by
    rw [hr]
    exact Word.msb_ofBytes ..
  have hz : ((adcWord f a b).1 == 0) = (r.1.high == 0 && r.1.low == 0) := by
    rw [hr, beq_zero_eq_bytes]
  have hh : decide (4095 < a.toNat % 4096 + b.toNat % 4096 + f.c.toNat) =
      decide (15 < a.high.toNat % 16 + b.high.toNat % 16 + low.2.c.toNat) := by
    rw [decide_eq_decide]
    omega
  have hpv : (a.msb == b.msb && a.msb != (adcWord f a b).1.msb) =
      (a.high.msb == b.high.msb && a.high.msb != high.1.msb) := by
    rw [hs, a.msb_high, b.msb_high]
  have hc : decide (65535 < a.toNat + b.toNat + f.c.toNat) =
      decide (255 < a.high.toNat + b.high.toNat + low.2.c.toNat) := by
    rw [decide_eq_decide]
    omega
  refine Prod.ext hr ?_
  show Flags.mk _ _ _ _ _ _ _ _ = Flags.mk _ _ _ _ _ _ _ _
  rw [Flags.mk.injEq]
  exact ⟨hs, hz, rfl, hh, rfl, hpv, rfl, hc⟩

theorem sbcWord_eq_bytewise :
    let r := bytewise sub f a b f.c
    sbcWord f a b = (r.1, { r.2 with z := r.1.high == 0 && r.1.low == 0 }) := by
  intro r
  let low := sub f a.low b.low f.c
  let high := sub low.2 a.high b.high low.2.c
  have ha := a.toNat_eq_high_low
  have hb := b.toNat_eq_high_low
  have hlowa := a.low.isLt
  have hlowb := b.low.isLt
  have hhighb := b.high.isLt
  have hcarry : f.c.toNat ≤ 1 := Bool.toNat_le _
  have hborrow : low.2.c.toNat = if a.low.toNat < b.low.toNat + f.c.toNat then 1 else 0 := borrow_sub ..
  have hr : (sbcWord f a b).1 = r.1 := by
    apply BitVec.eq_of_toNat_eq
    rw [toNat_sbcWord, show r.1 = Word.ofBytes high.1 low.1 from rfl, Word.toNat_ofBytes, toNat_sub, toNat_sub, hborrow]
    split <;> omega
  have hs : (sbcWord f a b).1.msb = high.1.msb := by
    rw [hr]
    exact Word.msb_ofBytes ..
  have hz : ((sbcWord f a b).1 == 0) = (r.1.high == 0 && r.1.low == 0) := by
    rw [hr, beq_zero_eq_bytes]
  have hh : decide (a.toNat % 4096 < b.toNat % 4096 + f.c.toNat) =
      decide (a.high.toNat % 16 < b.high.toNat % 16 + low.2.c.toNat) := by
    rw [decide_eq_decide]
    split at hborrow <;> omega
  have hpv : (a.msb != b.msb && a.msb != (sbcWord f a b).1.msb) =
      (a.high.msb != b.high.msb && a.high.msb != high.1.msb) := by
    rw [hs, a.msb_high, b.msb_high]
  have hc : decide (a.toNat < b.toNat + f.c.toNat) = decide (a.high.toNat < b.high.toNat + low.2.c.toNat) := by
    rw [decide_eq_decide]
    split at hborrow <;> omega
  refine Prod.ext hr ?_
  show Flags.mk _ _ _ _ _ _ _ _ = Flags.mk _ _ _ _ _ _ _ _
  rw [Flags.mk.injEq]
  exact ⟨hs, hz, rfl, hh, rfl, hpv, rfl, hc⟩

/-- Without a carry, and with three flags kept. -/
theorem addWord_eq_bytewise :
    let r := bytewise add f a b false
    addWord f a b = (r.1, { f with h := r.2.h, n := r.2.n, c := r.2.c }) := by
  have hsum : addWord f a b =
      let r := adcWord { f with c := false } a b
      (r.1, { f with h := r.2.h, n := r.2.n, c := r.2.c }) := by
    rw [adcWord, show a + b + BitVec.ofNat 16 false.toNat = a + b from BitVec.add_zero _]
    rfl
  rw [hsum, adcWord_eq_bytewise]
  rfl

end

/-! ## Bytes -/

section
variable (f : Flags) (a : Byte)

theorem inc_eq_add : inc f a = ((add f a 1 false).1, { (add f a 1 false).2 with c := f.c }) := by
  have hr : a + 1 + BitVec.ofNat 8 false.toNat = a + 1 := BitVec.add_zero _
  have hpv : ∀ a : Byte, (a == 0x7F) = (a.msb == (1 : Byte).msb && a.msb != (a + 1).msb) := by decide +kernel
  rw [inc, add, hr, hpv]
  rfl

theorem dec_eq_sub : dec f a = ((sub f a 1 false).1, { (sub f a 1 false).2 with c := f.c }) := by
  have hr : a - 1 - BitVec.ofNat 8 false.toNat = a - 1 := BitVec.sub_zero _
  have hh : decide (a.toNat % 16 = 0) = decide (a.toNat % 16 < (1 : Byte).toNat % 16 + false.toNat) := by
    rw [decide_eq_decide]
    exact Nat.lt_one_iff.symm
  have hpv : ∀ a : Byte, (a == 0x80) = (a.msb != (1 : Byte).msb && a.msb != (a - 1).msb) := by decide +kernel
  rw [dec, sub, hr, hpv, hh]
  rfl

theorem neg_eq_sub : neg f a = sub f 0 a false := by
  have hr : 0 - a - BitVec.ofNat 8 false.toNat = -a := (BitVec.sub_zero _).trans (BitVec.zero_sub a)
  have hh : decide (a.toNat % 16 ≠ 0) = decide ((0 : Byte).toNat % 16 < a.toNat % 16 + false.toNat) := by
    rw [decide_eq_decide]
    exact Nat.pos_iff_ne_zero.symm
  have hpv : ∀ a : Byte, (a == 0x80) = ((0 : Byte).msb != a.msb && (0 : Byte).msb != (-a).msb) := by decide +kernel
  have hc : ∀ a : Byte, decide (a ≠ 0) = decide ((0 : Byte).toNat < a.toNat + false.toNat) := by decide +kernel
  rw [neg, sub, hr, hh, hpv, hc]

end

/-! ## Searches -/

/-- A search compares as the adder does. -/
theorem flags_searchBlock {β : Type} [PortBus β] (k : Block) (s : Site) (m : Machine β) :
    let found := (Bus.read m.bus m.regs.hl).1
    ((Action.searchBlock k).perform s m).2.regs.f =
      { (sub m.regs.f m.regs.a found false).2 with pv := m.regs.bc - 1 != 0, c := m.regs.f.c } := by
  intro found
  have hr : m.regs.a - found - BitVec.ofNat 8 false.toNat = m.regs.a - found := BitVec.sub_zero _
  rw [sub, hr]
  rfl

/-! ## All of them -/

/-- What is worked out in another way is what the adder gives. -/
theorem agrees_with_adder (f : Flags) :
    (∀ a b : Word, let r := bytewise add f a b f.c
      adcWord f a b = (r.1, { r.2 with z := r.1.high == 0 && r.1.low == 0 })) ∧
    (∀ a b : Word, let r := bytewise sub f a b f.c
      sbcWord f a b = (r.1, { r.2 with z := r.1.high == 0 && r.1.low == 0 })) ∧
    (∀ a b : Word, let r := bytewise add f a b false
      addWord f a b = (r.1, { f with h := r.2.h, n := r.2.n, c := r.2.c })) ∧
    (∀ a : Byte, inc f a = ((add f a 1 false).1, { (add f a 1 false).2 with c := f.c })) ∧
    (∀ a : Byte, dec f a = ((sub f a 1 false).1, { (sub f a 1 false).2 with c := f.c })) ∧
    (∀ a : Byte, neg f a = sub f 0 a false) ∧
    ∀ {β : Type} [PortBus β] (k : Block) (s : Site) (r : Registers) (bus : β),
      let after := ((Action.searchBlock k).perform s ⟨{ r with f }, bus⟩).2.regs
      after.f = { (sub f r.a (Bus.read bus r.hl).1 false).2 with pv := after.bc != 0, c := f.c } := by
  refine ⟨adcWord_eq_bytewise f, sbcWord_eq_bytewise f, addWord_eq_bytewise f, inc_eq_add f, dec_eq_sub f, neg_eq_sub f, ?_⟩
  intro β _ k s r bus after
  have hbc : after.bc = r.bc - 1 := Word.ofBytes_high_low _
  rw [hbc]
  exact flags_searchBlock k s ⟨{ r with f }, bus⟩

end Micro80.Alu
