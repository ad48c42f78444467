/-
  Micro80.Proofs.Block — the repeating block instructions run to their end. One that
  repeats is a step that comes back to itself; BC counts the steps, and a count of zero
  stands for 65536.

  Proved, for every state, either direction and any overlap:
  - `after_copyBlock`: a copy moves one byte a step, each read seeing the writes before
    it, until the count runs out. It needs its own two bytes to stay as they are until
    then.
  - `after_searchBlock`: a search stops right behind the first byte that equals A, or
    where the count runs out.
-/

import Mathlib.Algebra.GroupWithZero.Nat
import Micro80.Proofs.Flat

namespace Micro80

open Bus (Flat)
open Encoding (blockDescriptor)

/-! ## Counting -/

/-- How many steps it takes to count `b` down to zero; from zero it is the whole way round. -/
def turns {w : Nat} (b : BitVec w) : Nat := if b = 0 then 2 ^ w else b.toNat

theorem turns_eq {w : Nat} (b : BitVec w) : turns b = (b - 1).toNat + 1 := by
  unfold turns
  by_cases h : b = 0
  · have hpos : 0 < 2 ^ w := Nat.two_pow_pos w
    rw [if_pos h, h, BitVec.ofNat_eq_ofNat, BitVec.zero_sub, BitVec.ofNat_eq_ofNat, BitVec.neg_one_eq_allOnes,
      BitVec.toNat_allOnes]
    omega
  · have hb : 1 ≤ b.toNat := Nat.pos_of_ne_zero fun h0 => h (BitVec.eq_of_toNat_eq h0)
    have hone : (1 : BitVec w).toNat = 1 := Nat.mod_eq_of_lt (Nat.lt_of_le_of_lt hb b.isLt)
    rw [if_neg h, BitVec.toNat_sub_of_le (BitVec.le_def.mpr (hone ▸ hb)), hone]
    omega

theorem pred_eq_zero {w : Nat} {b : BitVec w} (h : turns b = 1) : b - 1 = 0 := by
  rw [turns_eq] at h
  exact BitVec.eq_of_toNat_eq (Nat.succ.inj h)

theorem turns_pred {w : Nat} {b : BitVec w} {n : Nat} (h : turns b = n + 2) : b - 1 ≠ 0 ∧ turns (b - 1) = n + 1 := by
  rw [turns_eq] at h
  have hb : b - 1 ≠ 0 := by
    intro h0
    rw [h0] at h
    cases h
  rw [turns, if_neg hb]
  exact ⟨hb, Nat.succ.inj h⟩

def Registers.repetitions (r : Registers) : Nat := if r.bc = 0 then 65536 else r.bc.toNat

theorem Registers.repetitions_eq_turns (r : Registers) : r.repetitions = turns r.bc := rfl

theorem Registers.repetitions_eq (r : Registers) : r.repetitions = (r.bc - 1).toNat + 1 := turns_eq r.bc

theorem Registers.bc_of_repetitions_one {r : Registers} (h : r.repetitions = 1) : r.bc - 1 = 0 := pred_eq_zero h

theorem Registers.repetitions_of_bc {r s : Registers} {n : Nat} (h : r.repetitions = n + 2) (hs : s.bc = r.bc - 1) :
    r.bc - 1 ≠ 0 ∧ s.repetitions = n + 1 := by
  rw [repetitions_eq_turns, hs]
  exact turns_pred h

def stride (down : Bool) : Word := if down then -1 else 1

theorem add_stride_mul (a δ : Word) (n : Nat) : a + δ + δ * BitVec.ofNat 16 n = a + δ * BitVec.ofNat 16 (n + 1) := by
  rw [BitVec.ofNat_add, BitVec.mul_add, BitVec.mul_one, BitVec.add_assoc, BitVec.add_comm δ]

/-! ## Decoding -/

/-- The second byte of a repeating block instruction follows the lead byte at `a`. -/
structure Memory.HoldsBlock (m : Memory) (a : Word) (opcode : Byte) : Prop where
  lead : m.get a = 0xED
  opcode : m.get (a + 1) = opcode

def copyOpcode (down : Bool) : Byte := if down then 0xB8 else 0xB0

def searchOpcode (down : Bool) : Byte := if down then 0xB9 else 0xB1

def copyDescriptor (down : Bool) : Descriptor :=
  blockDescriptor (if down then "lddr" else "ldir") ⟨down, true⟩ .copyBlock

def searchDescriptor (down : Bool) : Descriptor :=
  blockDescriptor (if down then "cpdr" else "cpir") ⟨down, true⟩ .searchBlock

theorem decode_copyBlock {a : Word} {b : Flat} {down : Bool} (h : b.memory.HoldsBlock a (copyOpcode down)) :
    (decode .z80 a b).1 = .ok ⟨copyDescriptor down, .ed⟩ := by
  apply decode_of_lead
  · rw [h.lead]
    decide +kernel
  · rw [h.opcode]
    cases down <;> decide +kernel

theorem decode_searchBlock {a : Word} {b : Flat} {down : Bool} (h : b.memory.HoldsBlock a (searchOpcode down)) :
    (decode .z80 a b).1 = .ok ⟨searchDescriptor down, .ed⟩ := by
  apply decode_of_lead
  · rw [h.lead]
    decide +kernel
  · rw [h.opcode]
    cases down <;> decide +kernel

/-! ## Running -/

namespace Cpu

theorem after_succ {c d : Cpu Flat} (h : c.step = (none, d)) (n : Nat) : c.after (n + 1) = d.after n := by
  rw [after, h]

theorem after_add (c : Cpu Flat) (m n : Nat) : c.after (m + n) = (c.after m).after n := by
  induction m generalizing c with
  | zero => rw [Nat.zero_add, after]
  | succ m ih => rw [Nat.add_right_comm, after, ih, after]

/-- Each of the next `n` steps begins at one of the addresses, and none stops. -/
def RunsIn (c : Cpu Flat) (as : List Word) (n : Nat) : Prop :=
  ∀ k < n, (c.after k).step.1 = none ∧ (c.after k).regs.pc ∈ as

def RunsAt (c : Cpu Flat) (a : Word) (n : Nat) : Prop := ∀ k < n, (c.after k).step.1 = none ∧ (c.after k).regs.pc = a

section
variable {c d : Cpu Flat} {as bs : List Word} {a : Word} {m n : Nat}

theorem RunsIn.zero (c : Cpu Flat) (as : List Word) : c.RunsIn as 0 := by
  intro k hk
  exact absurd hk (Nat.not_lt_zero k)

theorem RunsIn.succ (h : c.step = (none, d)) (hc : c.regs.pc ∈ as) (hd : d.RunsIn as n) : c.RunsIn as (n + 1) := by
  intro k hk
  cases k with
  | zero => exact ⟨congrArg Prod.fst h, hc⟩
  | succ k =>
    rw [after_succ h]
    exact hd k (Nat.lt_of_succ_lt_succ hk)

theorem RunsIn.add (hm : c.RunsIn as m) (hn : (c.after m).RunsIn as n) : c.RunsIn as (m + n) := by
  intro k hk
  by_cases hlt : k < m
  · exact hm k hlt
  · have hrest := hn (k - m) (by omega)
    rwa [← after_add, show m + (k - m) = k by omega] at hrest

theorem RunsIn.mono (h : c.RunsIn as n) (hsub : as ⊆ bs) : c.RunsIn bs n := by
  intro k hk
  exact ⟨(h k hk).1, hsub (h k hk).2⟩

theorem runsAt_iff : c.RunsAt a n ↔ c.RunsIn [a] n := by
  simp only [RunsAt, RunsIn, List.mem_singleton]

theorem RunsAt.zero (c : Cpu Flat) (a : Word) : c.RunsAt a 0 := runsAt_iff.mpr (.zero c [a])

theorem RunsAt.succ (h : c.step = (none, d)) (ha : c.regs.pc = a) (hd : d.RunsAt a n) : c.RunsAt a (n + 1) :=
  runsAt_iff.mpr (.succ h (List.mem_singleton.mpr ha) (runsAt_iff.mp hd))

end

end Cpu

/-! ## Copying -/

/-- Memory after the first `n` bytes of a copy, which goes through memory by `δ`. -/
def Memory.copied (m : Memory) (src dst δ : Word) : Nat → Memory
  | 0 => m
  | n + 1 =>
    let m := m.copied src dst δ n
    m.set (dst + δ * BitVec.ofNat 16 n) (m.get (src + δ * BitVec.ofNat 16 n))

theorem Memory.get_copied_of_ne (m : Memory) (src : Word) {dst δ a : Word} {n : Nat}
    (h : ∀ i < n, dst + δ * BitVec.ofNat 16 i ≠ a) : (m.copied src dst δ n).get a = m.get a := by
  induction n with
  | zero => rfl
  | succ n ih =>
    rw [copied, get_set_of_ne _ _ (h n (by omega)), ih fun i hi => h i (by omega)]

/-- The first byte of a copy may be taken off at the front. -/
theorem Memory.copied_succ (m : Memory) (src dst δ : Word) (n : Nat) :
    m.copied src dst δ (n + 1) = (m.set dst (m.get src)).copied (src + δ) (dst + δ) δ n := by
  induction n with
  | zero => simp only [copied, BitVec.mul_zero, BitVec.add_zero]
  | succ n ih =>
    rw [copied, ih]
    simp only [copied, add_stride_mul]

namespace Registers

/-- After one byte of a copy, but for the program counter. -/
def copyStep (r : Registers) (δ : Word) : Registers :=
  { ((r.setHl (r.hl + δ)).setDe (r.de + δ)).setBc (r.bc - 1) with
    f := { r.f with h := false, pv := r.bc - 1 != 0, n := false } }

def copyEnd (r : Registers) (δ : Word) (n : Nat) : Registers :=
  { ((r.setHl (r.hl + δ * BitVec.ofNat 16 n)).setDe (r.de + δ * BitVec.ofNat 16 n)).setBc 0 with
    f := { r.f with h := false, pv := false, n := false } }

variable (r : Registers) (δ : Word)

theorem hl_copyStep : (r.copyStep δ).hl = r.hl + δ := Word.ofBytes_high_low _

theorem de_copyStep : (r.copyStep δ).de = r.de + δ := Word.ofBytes_high_low _

theorem bc_copyStep : (r.copyStep δ).bc = r.bc - 1 := Word.ofBytes_high_low _

theorem copyStep_eq_copyEnd (h : r.bc - 1 = 0) : r.copyStep δ = r.copyEnd δ 1 := by
  have hd : δ * BitVec.ofNat 16 1 = δ := BitVec.mul_one δ
  simp only [copyStep, copyEnd, h, hd]
  rfl

theorem refresh_copyStep (n : Nat) : (r.copyStep δ).refresh n = (r.refresh n).copyStep δ := rfl

theorem copyEnd_setPc (p : Word) (n : Nat) : (r.setPc p).copyEnd δ n = (r.copyEnd δ n).setPc p := rfl

theorem copyEnd_copyStep (n : Nat) : (r.copyStep δ).copyEnd δ n = r.copyEnd δ (n + 1) := by
  simp only [copyEnd, hl_copyStep, de_copyStep, add_stride_mul]
  rfl

end Registers

theorem Action.perform_copyBlock (k : Block) (s : Site) (m : Machine Flat) :
    (copyBlock k).perform s m = (k.outcome s (m.regs.bc - 1 != 0),
      ⟨m.regs.copyStep k.step, m.bus.withMemory (m.bus.memory.set m.regs.de (m.bus.memory.get m.regs.hl))⟩) := rfl

namespace Cpu

def copyStep (c : Cpu Flat) (δ : Word) : Cpu Flat :=
  let more := c.regs.bc - 1 != 0
  ⟨((c.regs.refresh 2).copyStep δ).setPc (if more then c.regs.pc else c.regs.pc + 2),
    c.cycles + if more then 21 else 16, c.dialect,
    c.bus.withMemory (c.bus.memory.set c.regs.de (c.bus.memory.get c.regs.hl))⟩

def copyEnd (c : Cpu Flat) (δ : Word) (n : Nat) : Cpu Flat :=
  ⟨((c.regs.refresh (2 * n)).copyEnd δ n).setPc (c.regs.pc + 2), c.cycles + (21 * (n - 1) + 16), c.dialect,
    c.bus.withMemory (c.bus.memory.copied c.regs.hl c.regs.de δ n)⟩

theorem step_copyBlock {c : Cpu Flat} {down : Bool} (hz : c.dialect = .z80)
    (h : c.bus.memory.HoldsBlock c.regs.pc (copyOpcode down)) : c.step = (none, c.copyStep (stride down)) := by
  have hd : (decode c.dialect c.regs.pc c.bus).1 = .ok ⟨copyDescriptor down, .ed⟩ := by
    rw [hz, decode_copyBlock h]
  have hp := Action.perform_copyBlock ⟨down, true⟩ (Instruction.site ⟨copyDescriptor down, .ed⟩ c.regs.pc)
    ⟨c.regs.refresh 2, c.bus⟩
  rw [Block.outcome, if_pos rfl] at hp
  rw [step_of_decode hd hp, Outcome.stop_branch, Instruction.target_branch, Instruction.cost_branch]
  rfl

theorem copyStep_eq_copyEnd {c : Cpu Flat} (δ : Word) (h : c.regs.bc - 1 = 0) : c.copyStep δ = c.copyEnd δ 1 := by
  have hm : (c.regs.bc - 1 != 0) = false := by
    rw [h]
    rfl
  have hb : (c.regs.refresh 2).bc - 1 = 0 := h
  unfold copyStep copyEnd
  rw [Registers.copyStep_eq_copyEnd _ _ hb, Memory.copied_succ, Memory.copied]
  simp only [hm]
  rfl

theorem hl_copyStep (c : Cpu Flat) (δ : Word) : (c.copyStep δ).regs.hl = c.regs.hl + δ :=
  Registers.hl_copyStep (c.regs.refresh 2) δ

theorem de_copyStep (c : Cpu Flat) (δ : Word) : (c.copyStep δ).regs.de = c.regs.de + δ :=
  Registers.de_copyStep (c.regs.refresh 2) δ

theorem bc_copyStep (c : Cpu Flat) (δ : Word) : (c.copyStep δ).regs.bc = c.regs.bc - 1 :=
  Registers.bc_copyStep (c.regs.refresh 2) δ

theorem memory_copyStep (c : Cpu Flat) (δ : Word) :
    (c.copyStep δ).bus.memory = c.bus.memory.set c.regs.de (c.bus.memory.get c.regs.hl) := rfl

/-- The end of a copy is that of what is left of it after the first byte. -/
theorem copyEnd_copyStep {c : Cpu Flat} (δ : Word) (n : Nat) (h : c.regs.bc - 1 ≠ 0) :
    (c.copyStep δ).copyEnd δ (n + 1) = c.copyEnd δ (n + 2) := by
  have hm : (c.regs.bc - 1 != 0) = true := bne_iff_ne.mpr h
  have hregs : (c.copyStep δ).regs = ((c.regs.refresh 2).copyStep δ).setPc c.regs.pc := by
    rw [copyStep, if_pos hm]
  have hpc : (c.copyStep δ).regs.pc = c.regs.pc := if_pos hm
  have hcycles : (c.copyStep δ).cycles + (21 * (n + 1 - 1) + 16) = c.cycles + (21 * (n + 2 - 1) + 16) := by
    have h21 : (c.copyStep δ).cycles = c.cycles + 21 := congrArg (c.cycles + ·) (if_pos hm)
    omega
  have hmemory : (c.copyStep δ).bus.memory.copied (c.copyStep δ).regs.hl (c.copyStep δ).regs.de δ (n + 1) =
      c.bus.memory.copied c.regs.hl c.regs.de δ (n + 2) := by
    rw [Memory.copied_succ c.bus.memory, hl_copyStep, de_copyStep, memory_copyStep]
  have hend : (((c.copyStep δ).regs.refresh (2 * (n + 1))).copyEnd δ (n + 1)).setPc (c.regs.pc + 2) =
      ((c.regs.refresh (2 * (n + 2))).copyEnd δ (n + 2)).setPc (c.regs.pc + 2) := by
    rw [hregs, Registers.refresh_setPc, Registers.refresh_copyStep, Registers.refresh_refresh,
      Registers.copyEnd_setPc, Registers.copyEnd_copyStep, Registers.setPc_setPc,
      show 2 + 2 * (n + 1) = 2 * (n + 2) by omega]
  unfold copyEnd
  rw [hpc, hend, hcycles, hmemory]
  rfl

variable {down : Bool}

/-- From a count of `n + 1`, a copy is over after as many steps. -/
theorem copyBlock_run (n : Nat) : ∀ {c : Cpu Flat}, c.dialect = .z80 → c.regs.repetitions = n + 1 →
    (∀ i ≤ n, (c.bus.memory.copied c.regs.hl c.regs.de (stride down) i).HoldsBlock c.regs.pc (copyOpcode down)) →
    c.RunsAt c.regs.pc (n + 1) ∧ c.after (n + 1) = c.copyEnd (stride down) (n + 1) := by
  -- the first byte of the copy is taken off at the front, so the start is not fixed
  induction n with
  | zero =>
    intro c hz hn hcode
    have hs := step_copyBlock hz (hcode 0 (Nat.le_refl 0))
    refine ⟨.succ hs rfl (.zero _ _), ?_⟩
    rw [after_succ hs, after, copyStep_eq_copyEnd _ (Registers.bc_of_repetitions_one hn)]
  | succ n ih =>
    intro c hz hn hcode
    have hs := step_copyBlock hz (hcode 0 (Nat.zero_le _))
    obtain ⟨hbc, hn'⟩ := Registers.repetitions_of_bc hn (bc_copyStep c (stride down))
    have hpc : (c.copyStep (stride down)).regs.pc = c.regs.pc := if_pos (bne_iff_ne.mpr hbc)
    have hcode' : ∀ i ≤ n, ((c.copyStep (stride down)).bus.memory.copied (c.copyStep (stride down)).regs.hl
        (c.copyStep (stride down)).regs.de (stride down) i).HoldsBlock (c.copyStep (stride down)).regs.pc
        (copyOpcode down) := by
      intro i hi
      rw [hl_copyStep, de_copyStep, memory_copyStep, hpc, ← Memory.copied_succ]
      exact hcode (i + 1) (by omega)
    obtain ⟨hrun, hend⟩ := ih (c := c.copyStep (stride down)) hz hn' hcode'
    rw [hpc] at hrun
    refine ⟨.succ hs rfl hrun, ?_⟩
    rw [after_succ hs, hend, copyEnd_copyStep _ n hbc]

/-- A repeating copy moves `n` bytes in as many steps, the first `n - 1` of which come back
    to it, provided the writes before the last leave its own two bytes as they are. -/
theorem after_copyBlock {c : Cpu Flat} {down : Bool} {n : Nat} (hz : c.dialect = .z80) (hn : c.regs.repetitions = n)
    (hcode : ∀ i < n, (c.bus.memory.copied c.regs.hl c.regs.de (stride down) i).HoldsBlock c.regs.pc
      (copyOpcode down)) :
    c.RunsAt c.regs.pc n ∧ c.after n = c.copyEnd (stride down) n ∧
      (c.after n).regs.r.toNat = 128 * (c.regs.r.toNat / 128) + (c.regs.r.toNat + 2 * n) % 128 := by
  obtain ⟨k, rfl⟩ : ∃ k, n = k + 1 := ⟨(c.regs.bc - 1).toNat, by rw [← hn, Registers.repetitions_eq]⟩
  obtain ⟨hrun, hend⟩ := copyBlock_run k hz hn fun i hi => hcode i (by omega)
  refine ⟨hrun, hend, ?_⟩
  rw [hend]
  exact c.regs.toNat_refresh (2 * (k + 1))

/-- A copy onto itself one byte up repeats the first byte. -/
theorem after_copyBlock_overlapping :
    let c : Cpu Flat := ⟨{ l := 0x10, e := 0x11, c := 2 }, 0, .z80,
      { memory := (Memory.zero.load 0 [0xED, 0xB0]).set 0x10 7 }⟩
    c.regs.repetitions = 2 ∧ (∀ i < 2, (c.bus.memory.copied c.regs.hl c.regs.de (stride false) i).HoldsBlock c.regs.pc
      (copyOpcode false)) ∧ c.RunsAt 0 2 ∧ (c.after 2).bus.memory.get 0x12 = 7 ∧ (c.after 2).cycles = 37 := by
  intro c
  have hn : c.regs.repetitions = 2 := by decide
  have hhl : c.regs.hl = 0x10 := by decide
  have hde : c.regs.de = 0x11 := by decide
  have hcode : ∀ i < 2, (c.bus.memory.copied c.regs.hl c.regs.de (stride false) i).HoldsBlock c.regs.pc
      (copyOpcode false) := by
    intro i hi
    have apart : ∀ a : Word, a = 0 ∨ a = 0 + 1 → ∀ j < i, c.regs.de + stride false * BitVec.ofNat 16 j ≠ a := by
      intro a ha j hj
      obtain rfl : j = 0 := by omega
      rcases ha with rfl | rfl <;> decide
    constructor
    · rw [Memory.get_copied_of_ne _ _ (apart _ (.inl rfl))]
      simp [c, Memory.load, Memory.get_set]
    · rw [Memory.get_copied_of_ne _ _ (apart _ (.inr rfl))]
      simp [c, Memory.load, Memory.get_set, copyOpcode]
  obtain ⟨hrun, hend, -⟩ := after_copyBlock rfl hn hcode
  have hm : (c.after 2).bus.memory = c.bus.memory.copied 0x10 0x11 1 2 := by
    rw [hend, ← hhl, ← hde]
    rfl
  refine ⟨hn, hcode, hrun, ?_, ?_⟩
  · rw [hm]
    simp [Memory.copied, c]
  · rw [hend]
    rfl

end Cpu

/-! ## Searching -/

namespace Registers

/-- After `k` bytes of a search, the last of which was `v`, but for the program counter. -/
def searched (r : Registers) (δ : Word) (v : Byte) (k : Nat) : Registers :=
  { (r.setHl (r.hl + δ * BitVec.ofNat 16 k)).setBc (r.bc - BitVec.ofNat 16 k) with
    f := { r.f with
      s := (r.a - v).msb, z := r.a == v, h := r.a.toNat % 16 < v.toNat % 16
      pv := r.bc - BitVec.ofNat 16 k != 0, n := true } }

variable (r : Registers) (δ : Word) (v : Byte)

theorem hl_searched (k : Nat) : (r.searched δ v k).hl = r.hl + δ * BitVec.ofNat 16 k := Word.ofBytes_high_low _

theorem bc_searched (k : Nat) : (r.searched δ v k).bc = r.bc - BitVec.ofNat 16 k := Word.ofBytes_high_low _

theorem searched_setPc (p : Word) (k : Nat) : (r.setPc p).searched δ v k = (r.searched δ v k).setPc p := rfl

theorem refresh_searched (k n : Nat) : (r.searched δ v k).refresh n = (r.refresh n).searched δ v k := rfl

theorem searched_searched (w : Byte) (k : Nat) : (r.searched δ v 1).searched δ w k = r.searched δ w (k + 1) := by
  have hhl : r.hl + δ * BitVec.ofNat 16 1 + δ * BitVec.ofNat 16 k = r.hl + δ * BitVec.ofNat 16 (k + 1) := by
    rw [show δ * BitVec.ofNat 16 1 = δ from BitVec.mul_one δ, add_stride_mul]
  have hbc : r.bc - BitVec.ofNat 16 1 - BitVec.ofNat 16 k = r.bc - BitVec.ofNat 16 (k + 1) := by
    rw [BitVec.ofNat_add]
    bv_omega
  rw [searched, hl_searched, bc_searched, hhl, hbc]
  rfl

end Registers

theorem sub_beq_zero (a v : Byte) : (a - v == 0) = (a == v) := by
  by_cases h : a = v
  · rw [h, BitVec.sub_self, beq_self_eq_true]
    rfl
  · rw [beq_eq_false_iff_ne.mpr h, beq_eq_false_iff_ne]
    intro h0
    bv_omega

theorem Action.perform_searchBlock (k : Block) (s : Site) (m : Machine Flat) :
    (searchBlock k).perform s m =
      (k.outcome s (m.regs.bc - 1 != 0 && m.regs.a != m.bus.memory.get m.regs.hl),
        ⟨m.regs.searched k.step (m.bus.memory.get m.regs.hl) 1, m.bus⟩) := by
  have hd : k.step * BitVec.ofNat 16 1 = k.step := BitVec.mul_one k.step
  unfold Registers.searched
  rw [hd, ← sub_beq_zero]
  rfl

namespace Cpu

def searched (c : Cpu Flat) (δ : Word) (v : Byte) (k : Nat) (more : Bool) : Cpu Flat :=
  ⟨((c.regs.refresh (2 * k)).searched δ v k).setPc (if more then c.regs.pc else c.regs.pc + 2),
    c.cycles + 21 * (k - 1) + (if more then 21 else 16), c.dialect, c.bus⟩

variable {c : Cpu Flat} {down : Bool}

theorem step_searchBlock (hz : c.dialect = .z80) (h : c.bus.memory.HoldsBlock c.regs.pc (searchOpcode down)) :
    c.step = (none, c.searched (stride down) (c.bus.memory.get c.regs.hl) 1
      (c.regs.bc - 1 != 0 && c.regs.a != c.bus.memory.get c.regs.hl)) := by
  have hd : (decode c.dialect c.regs.pc c.bus).1 = .ok ⟨searchDescriptor down, .ed⟩ := by
    rw [hz, decode_searchBlock h]
  have hp := Action.perform_searchBlock ⟨down, true⟩ (Instruction.site ⟨searchDescriptor down, .ed⟩ c.regs.pc)
    ⟨c.regs.refresh 2, c.bus⟩
  rw [Block.outcome, if_pos rfl] at hp
  rw [step_of_decode hd hp, Outcome.stop_branch, Instruction.target_branch, Instruction.cost_branch]
  rfl

theorem hl_searched (δ : Word) (v : Byte) (k : Nat) (more : Bool) :
    (c.searched δ v k more).regs.hl = c.regs.hl + δ * BitVec.ofNat 16 k :=
  Registers.hl_searched (c.regs.refresh (2 * k)) δ v k

theorem bc_searched (δ : Word) (v : Byte) (k : Nat) (more : Bool) :
    (c.searched δ v k more).regs.bc = c.regs.bc - BitVec.ofNat 16 k :=
  Registers.bc_searched (c.regs.refresh (2 * k)) δ v k

/-- What is left of a search after the first byte ends as the search does. -/
theorem searched_searched (δ : Word) (v w : Byte) (k : Nat) (more : Bool) :
    (c.searched δ v 1 true).searched δ w (k + 1) more = c.searched δ w (k + 2) more := by
  have hregs : ((c.searched δ v 1 true).regs.refresh (2 * (k + 1))).searched δ w (k + 1) =
      ((c.regs.refresh (2 * (k + 2))).searched δ w (k + 2)).setPc c.regs.pc := by
    have h : (c.searched δ v 1 true).regs = ((c.regs.refresh 2).searched δ v 1).setPc c.regs.pc := rfl
    rw [h, Registers.refresh_setPc, Registers.refresh_searched, Registers.refresh_refresh, Registers.searched_setPc,
      Registers.searched_searched, show 2 + 2 * (k + 1) = 2 * (k + 2) by omega]
  have hcycles : (c.searched δ v 1 true).cycles + 21 * (k + 1 - 1) = c.cycles + 21 * (k + 2 - 1) := by
    have h : (c.searched δ v 1 true).cycles = c.cycles + 21 := rfl
    omega
  rw [searched, hregs, hcycles, Registers.setPc_setPc]
  rfl

def met (c : Cpu Flat) (δ : Word) (j : Nat) : Byte := c.bus.memory.get (c.regs.hl + δ * BitVec.ofNat 16 j)

theorem met_zero (c : Cpu Flat) (δ : Word) : c.met δ 0 = c.bus.memory.get c.regs.hl := by
  rw [met, BitVec.mul_zero, BitVec.add_zero]

theorem met_searched (δ : Word) (v : Byte) (more : Bool) (j : Nat) :
    (c.searched δ v 1 more).met δ j = c.met δ (j + 1) := by
  unfold met
  rw [hl_searched, show δ * BitVec.ofNat 16 1 = δ from BitVec.mul_one δ, add_stride_mul]
  rfl

/-- A search whose first byte is its last. -/
theorem searchBlock_stop (hz : c.dialect = .z80) (h : c.bus.memory.HoldsBlock c.regs.pc (searchOpcode down))
    (hm : (c.regs.bc - 1 != 0 && c.regs.a != c.bus.memory.get c.regs.hl) = false) :
    c.RunsAt c.regs.pc 1 ∧ c.after 1 = c.searched (stride down) (c.met (stride down) 0) 1 false := by
  have hs := step_searchBlock hz h
  rw [hm, ← met_zero c (stride down)] at hs
  exact ⟨.succ hs rfl (.zero _ _), after_succ hs 0⟩

/-- From a count of `n + 1`, a search is over behind the first match, or after as many steps. -/
theorem searchBlock_run (n : Nat) : ∀ {c : Cpu Flat}, c.dialect = .z80 → c.regs.repetitions = n + 1 →
    c.bus.memory.HoldsBlock c.regs.pc (searchOpcode down) →
    ∃ k ≤ n, (∀ j < k, c.met (stride down) j ≠ c.regs.a) ∧ (c.met (stride down) k = c.regs.a ∨ k = n) ∧
      c.RunsAt c.regs.pc (k + 1) ∧
      c.after (k + 1) = c.searched (stride down) (c.met (stride down) k) (k + 1) false := by
  induction n with
  | zero =>
    intro c hz hn hcode
    have hm : (c.regs.bc - 1 != 0 && c.regs.a != c.bus.memory.get c.regs.hl) = false := by
      rw [Registers.bc_of_repetitions_one hn]
      rfl
    exact ⟨0, Nat.le_refl 0, fun j hj => absurd hj (Nat.not_lt_zero j), .inr rfl, searchBlock_stop hz hcode hm⟩
  | succ n ih =>
    intro c hz hn hcode
    by_cases hmatch : c.regs.a = c.bus.memory.get c.regs.hl
    · have hm : (c.regs.bc - 1 != 0 && c.regs.a != c.bus.memory.get c.regs.hl) = false := by
        rw [← hmatch, bne_self_eq_false, Bool.and_false]
      refine ⟨0, Nat.zero_le _, fun j hj => absurd hj (Nat.not_lt_zero j), .inl ?_, searchBlock_stop hz hcode hm⟩
      rw [met_zero, hmatch]
    · obtain ⟨hbc, hn'⟩ := Registers.repetitions_of_bc hn
        (bc_searched (c := c) (stride down) (c.bus.memory.get c.regs.hl) 1 true)
      have hs := step_searchBlock hz hcode
      rw [bne_iff_ne.mpr hbc, bne_iff_ne.mpr hmatch, Bool.and_self] at hs
      obtain ⟨k, hk, hleast, hend, hrun, hafter⟩ :=
        ih (c := c.searched (stride down) (c.bus.memory.get c.regs.hl) 1 true) hz hn' hcode
      refine ⟨k + 1, by omega, ?_, ?_, .succ hs rfl hrun, ?_⟩
      · intro j hj
        cases j with
        | zero =>
          rw [met_zero]
          exact fun h => hmatch h.symm
        | succ j =>
          rw [← met_searched]
          exact hleast j (by omega)
      · rw [← met_searched]
        rcases hend with h | h
        · exact .inl h
        · exact .inr (by omega)
      · rw [after_succ hs, hafter, searched_searched, met_searched]

/-- A repeating search stops behind the first of its `n` bytes that equals A, or behind the last. -/
theorem after_searchBlock {c : Cpu Flat} {down : Bool} {n : Nat} (hz : c.dialect = .z80)
    (hn : c.regs.repetitions = n) (hcode : c.bus.memory.HoldsBlock c.regs.pc (searchOpcode down)) :
    ∃ k, 1 ≤ k ∧ k ≤ n ∧ (∀ j, 1 ≤ j → j < k → c.met (stride down) (j - 1) ≠ c.regs.a) ∧
      (c.met (stride down) (k - 1) = c.regs.a ∨ k = n) ∧ c.RunsAt c.regs.pc k ∧
      c.after k = c.searched (stride down) (c.met (stride down) (k - 1)) k false := by
  obtain ⟨m, rfl⟩ : ∃ m, n = m + 1 := ⟨(c.regs.bc - 1).toNat, by rw [← hn, Registers.repetitions_eq]⟩
  obtain ⟨k, hk, hleast, hend, hrun, hafter⟩ := searchBlock_run m hz hn hcode
  refine ⟨k + 1, by omega, by omega, ?_, ?_, hrun, hafter⟩
  · intro j h1 hj
    exact hleast (j - 1) (by omega)
  · rcases hend with h | h
    · exact .inl h
    · exact .inr (by omega)

/-- A match before the count runs out: Z and P/V are both set. -/
theorem after_searchBlock_match :
    let c : Cpu Flat := ⟨{ a := 5, l := 0x10, c := 3 }, 0, .z80,
      { memory := (Memory.zero.load 0 [0xED, 0xB1]).set 0x11 5 }⟩
    c.regs.repetitions = 3 ∧ c.bus.memory.HoldsBlock c.regs.pc (searchOpcode false) ∧ c.RunsAt 0 2 ∧
      (c.after 2).regs.hl = 0x12 ∧ (c.after 2).regs.f.z = true ∧ (c.after 2).regs.f.pv = true := by
  intro c
  have hn : c.regs.repetitions = 3 := by decide
  have hhl : c.regs.hl = 0x10 := by decide
  have hcode : c.bus.memory.HoldsBlock c.regs.pc (searchOpcode false) := by
    constructor
    · simp [c, Memory.load, Memory.get_set]
    · simp [c, Memory.load, Memory.get_set, searchOpcode]
  have h₀ : c.met (stride false) 0 = 0 := by
    rw [met_zero, hhl]
    simp [c, Memory.load, Memory.get_set]
  have h₁ : c.met (stride false) 1 = 5 := by
    rw [met, hhl]
    simp [c, stride]
  obtain ⟨k, h1, hk, hleast, hend, hrun, hafter⟩ := after_searchBlock rfl hn hcode
  have hpast : k ≠ 3 := by
    rintro rfl
    exact hleast 2 (by omega) (by omega) h₁
  have hfirst : k ≠ 1 := by
    rintro rfl
    rcases hend with h | h
    · exact absurd (h₀.symm.trans h) (by decide)
    · exact absurd h (by decide)
  obtain rfl : k = 2 := by omega
  refine ⟨hn, hcode, hrun, ?_, ?_, ?_⟩
  · rw [hafter, hl_searched, hhl]
    decide
  · rw [hafter, h₁]
    rfl
  · rw [hafter]
    decide

end Cpu

end Micro80
