/-
  Micro80.Proofs.Delay — delay loops: instructions that do nothing, and behind them a
  `djnz` back to the first. A round passes over the loop once, and B counts the rounds; a
  count of zero stands for 256. The displacement is a signed byte, so there is room for 126
  idle instructions at most.

  Proved, for every state, wherever the loop stands in memory:
  - `after_delayLoop`: the loop is left after as many rounds as B says and not before, and
    a round costs the same each time but the last, which is five cycles cheaper. B is zero
    then and nothing else has changed but the program counter and the refresh register.
-/

import Micro80.Proofs.Block

namespace Micro80

open Bus (Flat)
open Encoding (relativeColumn)

/-! ## The loop in memory -/

/-- `m` idle instructions from `a` upward, and a `djnz` that goes back over itself and them. -/
structure Memory.HoldsDelay (mem : Memory) (a : Word) (m : Nat) : Prop where
  idle : ∀ k < m, mem.get (a + BitVec.ofNat 16 k) = 0x00
  opcode : mem.get (a + BitVec.ofNat 16 m) = 0x10
  distance : mem.get (a + BitVec.ofNat 16 m + 1) = -BitVec.ofNat 8 (m + 2)

/-- A displacement of up to 128 bytes back. -/
theorem Word.displace_back (a : Word) {n : Nat} (h : n ≤ 128) :
    (a + BitVec.ofNat 16 n).displace (-BitVec.ofNat 8 n) = a := by
  have back : ∀ k ≤ 128, (-BitVec.ofNat 8 k).signExtend 16 = -BitVec.ofNat 16 k := by decide
  rw [displace, back n h, ← BitVec.sub_eq_add_neg, BitVec.add_sub_cancel]

namespace Cpu

/-! ## Idle instructions -/

def idled (c : Cpu Flat) (n : Nat) : Cpu Flat :=
  ⟨(c.regs.refresh n).setPc (c.regs.pc + BitVec.ofNat 16 n), c.cycles + 4 * n, c.dialect, c.bus⟩

theorem idled_zero (c : Cpu Flat) : c.idled 0 = c := by
  have hpc : c.regs.setPc (c.regs.pc + BitVec.ofNat 16 0) = c.regs := by
    rw [Word.add_ofNat_zero]
    rfl
  rw [idled, Registers.refresh_zero, hpc]
  rfl

theorem idled_idled (c : Cpu Flat) (n : Nat) : (c.idled 1).idled n = c.idled (n + 1) := by
  have hregs : (c.idled 1).regs.refresh n = (c.regs.refresh (n + 1)).setPc (c.regs.pc + 1) := by
    have h : (c.idled 1).regs = (c.regs.refresh 1).setPc (c.regs.pc + 1) := rfl
    rw [h, Registers.refresh_setPc, Registers.refresh_refresh, Nat.add_comm]
  have hpc : (c.idled 1).regs.pc + BitVec.ofNat 16 n = c.regs.pc + BitVec.ofNat 16 (n + 1) :=
    (c.regs.pc.add_ofNat_succ n).symm
  have hcycles : (c.idled 1).cycles + 4 * n = c.cycles + 4 * (n + 1) := by
    have h : (c.idled 1).cycles = c.cycles + 4 := rfl
    omega
  rw [idled, hregs, hpc, hcycles, Registers.setPc_setPc]
  rfl

theorem step_idle {c : Cpu Flat} (h : c.bus.memory.get c.regs.pc = 0x00) : c.step = (none, c.idled 1) := by
  have hd : (decode c.dialect c.regs.pc c.bus).1 = .ok ⟨relativeColumn 0, .base⟩ := by
    apply decode_of_base
    · rw [h]
      rfl
    · cases c.dialect <;> rfl
  exact step_of_decode hd rfl

/-- A row of idle instructions. -/
theorem after_idle {n : Nat} : ∀ {c : Cpu Flat}, (∀ k < n, c.bus.memory.get (c.regs.pc + BitVec.ofNat 16 k) = 0x00) →
    c.RunsIn (c.regs.pc.cells n) n ∧ c.after n = c.idled n := by
  induction n with
  | zero =>
    intro c _
    exact ⟨.zero _ _, c.idled_zero.symm⟩
  | succ n ih =>
    intro c h
    have hfirst := h 0 (Nat.zero_lt_succ n)
    rw [Word.add_ofNat_zero] at hfirst
    have hs := step_idle hfirst
    have hrest : ∀ k < n, (c.idled 1).bus.memory.get ((c.idled 1).regs.pc + BitVec.ofNat 16 k) = 0x00 := by
      intro k hk
      have hnext := h (k + 1) (Nat.succ_lt_succ hk)
      rwa [Word.add_ofNat_succ] at hnext
    obtain ⟨hrun, hend⟩ := ih hrest
    rw [Word.cells_succ, after_succ hs, hend, idled_idled]
    exact ⟨.succ hs (List.mem_cons_self ..) (hrun.mono fun _ => List.mem_cons_of_mem _), rfl⟩

/-! ## Rounds -/

def countedDown (c : Cpu Flat) : Cpu Flat :=
  let more := c.regs.b - 1 != 0
  ⟨{ c.regs.refresh 1 with
      b := c.regs.b - 1
      pc := if more then (c.regs.pc + 2).displace (c.bus.memory.get (c.regs.pc + 1)) else c.regs.pc + 2 },
    c.cycles + (if more then 13 else 8), c.dialect, c.bus⟩

def lapped (c : Cpu Flat) (m : Nat) : Cpu Flat :=
  let more := c.regs.b - 1 != 0
  ⟨{ c.regs.refresh (m + 1) with
      b := c.regs.b - 1, pc := if more then c.regs.pc else c.regs.pc + BitVec.ofNat 16 (m + 2) },
    c.cycles + (4 * m + if more then 13 else 8), c.dialect, c.bus⟩

/-- After the last of `n` rounds. -/
def delayed (c : Cpu Flat) (m n : Nat) : Cpu Flat :=
  ⟨{ c.regs.refresh (n * (m + 1)) with b := 0, pc := c.regs.pc + BitVec.ofNat 16 (m + 2) },
    c.cycles + (n * (4 * m + 13) - 5), c.dialect, c.bus⟩

theorem step_countDown {c : Cpu Flat} (hz : c.dialect = .z80) (h : c.bus.memory.get c.regs.pc = 0x10) :
    c.step = (none, c.countedDown) := by
  have hd : (decode c.dialect c.regs.pc c.bus).1 = .ok ⟨relativeColumn 2, .base⟩ := by
    apply decode_of_base
    · rw [h]
      rfl
    · rw [hz]
      rfl
  rw [step_of_decode hd rfl, Outcome.stop_branch, Instruction.target_branch, Instruction.cost_branch]
  rfl

variable {c : Cpu Flat} {m : Nat}

theorem countedDown_idled (hm : m ≤ 126) (h : c.bus.memory.HoldsDelay c.regs.pc m) :
    (c.idled m).countedDown = c.lapped m := by
  have hregs : (c.idled m).regs.refresh 1 = (c.regs.refresh (m + 1)).setPc (c.idled m).regs.pc := by
    rw [← Registers.refresh_refresh]
    rfl
  have hnext : (c.idled m).regs.pc + 2 = c.regs.pc + BitVec.ofNat 16 (m + 2) := by
    rw [BitVec.ofNat_add, ← BitVec.add_assoc]
    rfl
  have hback : (c.regs.pc + BitVec.ofNat 16 (m + 2)).displace
      ((c.idled m).bus.memory.get ((c.idled m).regs.pc + 1)) = c.regs.pc := by
    rw [show (c.idled m).bus.memory.get ((c.idled m).regs.pc + 1) = _ from h.distance,
      Word.displace_back _ (by omega)]
  have hcycles : (c.idled m).cycles + (if c.regs.b - 1 != 0 then 13 else 8) =
      c.cycles + (4 * m + if c.regs.b - 1 != 0 then 13 else 8) := Nat.add_assoc ..
  have hb : (c.idled m).regs.b = c.regs.b := rfl
  simp only [countedDown, hregs, hnext, hback, hb, hcycles]
  rfl

/-- A round goes through all of the loop. -/
theorem after_lap (hz : c.dialect = .z80) (hm : m ≤ 126) (h : c.bus.memory.HoldsDelay c.regs.pc m) :
    c.RunsIn (c.regs.pc.cells (m + 1)) (m + 1) ∧ c.after (m + 1) = c.lapped m := by
  obtain ⟨hrun, hend⟩ := after_idle h.idle
  have hs : (c.idled m).step = (none, c.lapped m) := by
    rw [← countedDown_idled hm h]
    exact step_countDown hz h.opcode
  rw [Word.cells_concat, after_add, hend, after_succ hs]
  refine ⟨.add (hrun.mono (List.subset_append_left ..)) ?_, rfl⟩
  rw [hend]
  exact .succ hs (List.mem_append_right _ (List.mem_singleton.mpr rfl)) (.zero _ _)

theorem lapped_eq_delayed (h : c.regs.b - 1 = 0) : c.lapped m = c.delayed m 1 := by
  have hcycles : 1 * (4 * m + 13) - 5 = 4 * m + 8 := by omega
  rw [delayed, hcycles, Nat.one_mul, lapped, h]
  rfl

/-- The rounds behind the first end where all of them do. -/
theorem delayed_lapped (n : Nat) (h : c.regs.b - 1 ≠ 0) : (c.lapped m).delayed m (n + 1) = c.delayed m (n + 2) := by
  have hmore : (c.regs.b - 1 != 0) = true := bne_iff_ne.mpr h
  have hpc : (c.lapped m).regs.pc = c.regs.pc := if_pos hmore
  have hsteps : m + 1 + (n + 1) * (m + 1) = (n + 2) * (m + 1) := by
    rw [Nat.succ_mul (n + 1), Nat.add_comm]
  have hcycles : (c.lapped m).cycles + ((n + 1) * (4 * m + 13) - 5) = c.cycles + ((n + 2) * (4 * m + 13) - 5) := by
    have hlap : (c.lapped m).cycles = c.cycles + (4 * m + 13) := by
      rw [lapped, hmore]
      rfl
    rw [hlap, Nat.succ_mul (n + 1), Nat.succ_mul n]
    omega
  calc (c.lapped m).delayed m (n + 1)
      = ⟨{ (c.regs.refresh (m + 1)).refresh ((n + 1) * (m + 1)) with
          b := 0, pc := (c.lapped m).regs.pc + BitVec.ofNat 16 (m + 2) },
        (c.lapped m).cycles + ((n + 1) * (4 * m + 13) - 5), c.dialect, c.bus⟩ := rfl
    _ = c.delayed m (n + 2) := by
      rw [Registers.refresh_refresh, hsteps, hpc, hcycles]
      rfl

/-- From a count of `n + 1`, the loop is over after as many rounds. -/
theorem delay_run (hm : m ≤ 126) (n : Nat) : ∀ {c : Cpu Flat}, c.dialect = .z80 → turns c.regs.b = n + 1 →
    c.bus.memory.HoldsDelay c.regs.pc m →
    c.RunsIn (c.regs.pc.cells (m + 1)) ((n + 1) * (m + 1)) ∧ c.after ((n + 1) * (m + 1)) = c.delayed m (n + 1) := by
  induction n with
  | zero =>
    intro c hz hn hcode
    obtain ⟨hrun, hend⟩ := after_lap hz hm hcode
    rw [Nat.zero_add, Nat.one_mul, hend, lapped_eq_delayed (pred_eq_zero hn)]
    exact ⟨hrun, rfl⟩
  | succ n ih =>
    intro c hz hn hcode
    obtain ⟨hrun, hend⟩ := after_lap hz hm hcode
    obtain ⟨hb, hn'⟩ := turns_pred hn
    have hpc : (c.lapped m).regs.pc = c.regs.pc := if_pos (bne_iff_ne.mpr hb)
    obtain ⟨hrun', hend'⟩ := ih (c := c.lapped m) hz hn' (hpc ▸ hcode)
    rw [hpc] at hrun'
    rw [Nat.succ_mul (n + 1), Nat.add_comm _ (m + 1), after_add, hend, hend', delayed_lapped n hb]
    refine ⟨hrun.add ?_, rfl⟩
    rwa [hend]

/-- A delay loop of `m` idle instructions runs as many rounds as B says, and is left then
    and not before. -/
theorem after_delayLoop {c : Cpu Flat} {m : Nat} (hz : c.dialect = .z80) (hm : m ≤ 126)
    (hcode : c.bus.memory.HoldsDelay c.regs.pc m) :
    let b := turns c.regs.b
    let n := b * (m + 1)
    let exit := c.regs.pc + BitVec.ofNat 16 (m + 2)
    (∀ k < n, (c.after k).step.1 = none ∧ (c.after k).regs.pc ≠ exit) ∧
      c.after n = ⟨{ c.regs.refresh n with b := 0, pc := exit }, c.cycles + (b * (4 * m + 13) - 5), c.dialect, c.bus⟩ ∧
      (c.after n).regs.r.toNat = 128 * (c.regs.r.toNat / 128) + (c.regs.r.toNat + n) % 128 := by
  intro b n exit
  obtain ⟨k, hk⟩ : ∃ k, b = k + 1 := ⟨_, turns_eq _⟩
  obtain ⟨hrun, hend⟩ := delay_run hm k hz hk hcode
  rw [← hk] at hrun hend
  refine ⟨?_, hend, ?_⟩
  · intro j hj
    refine ⟨(hrun j hj).1, ?_⟩
    intro hexit
    have hmem := (hrun j hj).2
    rw [hexit] at hmem
    refine Word.not_mem_cells_end c.regs.pc (n := m + 2) (by omega) ?_
    rw [Word.cells_concat]
    exact List.mem_append_left _ hmem
  · rw [hend]
    exact c.regs.toNat_refresh n

/-- The longest loop with the largest count, across the top of memory. -/
theorem after_delayLoop_longest :
    let c : Cpu Flat := ⟨{ pc := 0xFFC0 }, 0, .z80, { memory := Memory.zero.load 0x3E [0x10, 0x80] }⟩
    c.dialect = .z80 ∧ 126 ≤ 126 ∧ c.bus.memory.HoldsDelay c.regs.pc 126 ∧
      (c.after 32512).regs.pc = 0x40 ∧ (c.after 32512).cycles = 132347 := by
  intro c
  have hcode : c.bus.memory.HoldsDelay c.regs.pc 126 := by
    constructor
    · intro k hk
      apply (Memory.get_load_of_ne _ _).trans (Memory.get_zero _)
      intro j hj
      rw [List.length_cons, List.length_singleton] at hj
      rw [show c.regs.pc = 0xFFC0 from rfl]
      bv_omega
    · simp [c, Memory.load, Memory.get_set]
    · simp [c, Memory.load]
  have hb : turns c.regs.b = 256 := rfl
  obtain ⟨-, hend, -⟩ := after_delayLoop rfl (Nat.le_refl 126) hcode
  rw [hb, show 256 * (126 + 1) = 32512 by decide] at hend
  refine ⟨rfl, Nat.le_refl 126, hcode, ?_, ?_⟩
  · rw [hend]
    decide
  · rw [hend, show c.cycles = 0 from rfl]

end Cpu

end Micro80
