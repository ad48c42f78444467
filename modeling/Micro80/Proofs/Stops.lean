/-
  Micro80.Proofs.Stops — steps that stop. A step stops at a halt, which is one byte, or
  where nothing decodes. The first counts cycles and the opcode fetch and leaves
  everything else alone (`step_of_halt`); the second leaves everything alone
  (`step_of_decode_error`). Either way the next step meets the same bytes at the same
  address.

  Proved, for every state of either dialect:
  - `stop_absorbing`: when a step stops, what a stop leaves behind, and that a processor
    that has stopped stops again in the same way, however often it is stepped.
-/

import Micro80.Proofs.Decoding

namespace Micro80

open Bus (Flat)

/-! ## Outcomes -/

theorem Outcome.branch_ne_halt (taken : Bool) (t : Word) : branch taken t ≠ .halt := by
  cases taken <;> exact fun h => nomatch h

theorem Block.outcome_ne_halt (k : Block) (s : Site) (again : Bool) : k.outcome s again ≠ .halt := by
  unfold outcome
  split
  · exact Outcome.branch_ne_halt again s.start
  · exact fun h => nomatch h

/-- No action but the halt comes out as one. -/
theorem Action.eq_halt_of_perform {a : Action} {s : Site} {m : Machine Flat} (h : (a.perform s m).1 = .halt) :
    a = .halt := by
  cases a with
  | halt => rfl
  | jumpIf cc => exact absurd h (Outcome.branch_ne_halt _ _)
  | jumpRelativeIf cc => exact absurd h (Outcome.branch_ne_halt _ _)
  | countDown => exact absurd h (Outcome.branch_ne_halt _ _)
  | copyBlock k => exact absurd h (Block.outcome_ne_halt k s _)
  | searchBlock k => exact absurd h (Block.outcome_ne_halt k s _)
  | callIf cc =>
    by_cases hc : cc.holds m.regs.f = true
    · rw [perform_callIf hc] at h
      cases h
    · rw [perform_callIf_skip hc] at h
      cases h
  | retIf cc =>
    by_cases hc : cc.holds m.regs.f = true
    · rw [perform_retIf hc] at h
      cases h
    · rw [perform_retIf_skip hc] at h
      cases h
  | _ => cases h

namespace Cpu

variable {c : Cpu Flat}

/-! ## The halt -/

/-- After a halt: four cycles and one opcode fetch. -/
def halted (c : Cpu Flat) : Cpu Flat := { c with regs := c.regs.refresh 1, cycles := c.cycles + 4 }

theorem step_of_halt (h : c.bus.memory.get c.regs.pc = haltByte) : c.step = (some .halt, c.halted) :=
  step_of_decode (decode_halt c.dialect h) rfl

theorem byte_of_step_halt (h : c.step.1 = some .halt) : c.bus.memory.get c.regs.pc = haltByte := by
  rcases step_cases c with ⟨e, -, hs⟩ | ⟨i, o, m, hd, hp, hs⟩
  · rw [hs] at h
    cases h
  · rw [hs] at h
    apply (action_eq_halt_iff hd).mp
    apply Action.eq_halt_of_perform
    rw [hp]
    exact (Outcome.stop_eq_some h).1

/-! ## Bytes without an instruction -/

theorem decode_of_step_invalid {opcode : Byte} {address : Word} (h : c.step.1 = some (.invalid opcode address)) :
    (decode c.dialect c.regs.pc c.bus).1 = .error opcode ∧ address = c.regs.pc := by
  rcases step_cases c with ⟨e, hd, hs⟩ | ⟨i, o, m, -, -, hs⟩
  · rw [hs] at h
    cases h
    exact ⟨hd, rfl⟩
  · rw [hs] at h
    exact absurd (Outcome.stop_eq_some h).2 (fun h => nomatch h)

theorem step_of_invalid {opcode : Byte} {address : Word} (h : c.step.1 = some (.invalid opcode address)) :
    c.step.2 = c := by
  rw [step_of_decode_error (decode_of_step_invalid h).1]

/-! ## Stopped for good -/

/-- What a processor that has stopped comes to in `n` steps. -/
def stuck (c : Cpu Flat) (stop : Stop) (n : Nat) : Cpu Flat :=
  match stop with
  | .halt => { c with regs := c.regs.refresh n, cycles := c.cycles + 4 * n }
  | .invalid .. => c

/-- The step behind a stop is the same stop. -/
theorem step_of_stop {stop : Stop} (h : c.step.1 = some stop) :
    c.step.2 = c.stuck stop 1 ∧ c.step.2.step.1 = some stop := by
  cases stop with
  | halt =>
    have hbyte := byte_of_step_halt h
    have hnext : c.halted.bus.memory.get c.halted.regs.pc = haltByte := hbyte
    rw [step_of_halt hbyte]
    refine ⟨rfl, ?_⟩
    rw [step_of_halt hnext]
  | invalid opcode address =>
    rw [step_of_invalid h]
    exact ⟨rfl, h⟩

theorem stuck_zero (c : Cpu Flat) (stop : Stop) : c.stuck stop 0 = c := by
  cases stop with
  | halt => simp only [stuck, Registers.refresh_zero, Nat.mul_zero, Nat.add_zero]
  | invalid opcode address => rfl

theorem stuck_stuck (c : Cpu Flat) (stop : Stop) (n : Nat) : (c.stuck stop 1).stuck stop n = c.stuck stop (n + 1) := by
  cases stop with
  | halt =>
    have hcycles : c.cycles + 4 * 1 + 4 * n = c.cycles + 4 * (n + 1) := by omega
    simp only [stuck, Registers.refresh_refresh, hcycles, Nat.add_comm 1 n]
  | invalid opcode address => rfl

theorem after_of_stop {stop : Stop} (n : Nat) :
    ∀ {c : Cpu Flat}, c.step.1 = some stop → c.after n = c.stuck stop n ∧ (c.after n).step.1 = some stop := by
  induction n with
  | zero =>
    intro c h
    exact ⟨(stuck_zero c stop).symm, h⟩
  | succ n ih =>
    intro c h
    obtain ⟨hs, hnext⟩ := step_of_stop h
    obtain ⟨hafter, hstop⟩ := ih hnext
    refine ⟨?_, hstop⟩
    rw [after, hafter, hs, stuck_stuck]

/-- Stops are atomic, and there is no way on from one. -/
theorem stop_absorbing (c : Cpu Flat) :
    (c.step.1 = some .halt ↔ c.bus.memory.get c.regs.pc = 0x76) ∧
    (c.step.1 = some .halt →
      c.step.2 = { c with regs := c.regs.refresh 1, cycles := c.cycles + 4 } ∧
      c.step.2.regs.r.toNat = 128 * (c.regs.r.toNat / 128) + (c.regs.r.toNat + 1) % 128) ∧
    (∀ opcode address, c.step.1 = some (.invalid opcode address) →
      address = c.regs.pc ∧ opcode = c.bus.memory.culprit c.dialect c.regs.pc ∧ c.step.2 = c) ∧
    ∀ stop, c.step.1 = some stop → ∀ k,
      (c.step.2.after k).step.1 = some stop ∧
      (c.step.2.after k).regs.pc = c.regs.pc ∧ (c.step.2.after k).bus = c.bus ∧
      (c.step.2.after k).cycles = c.step.2.cycles + if stop = .halt then 4 * k else 0 := by
  refine ⟨⟨byte_of_step_halt, fun h => by rw [step_of_halt h]⟩, ?_, ?_, ?_⟩
  · intro h
    rw [step_of_halt (byte_of_step_halt h)]
    exact ⟨rfl, c.regs.toNat_refresh 1⟩
  · intro opcode address h
    obtain ⟨hd, ha⟩ := decode_of_step_invalid h
    exact ⟨ha, decode_error hd, step_of_invalid h⟩
  · intro stop h k
    obtain ⟨hs, hnext⟩ := step_of_stop h
    obtain ⟨hafter, hstop⟩ := after_of_stop k hnext
    refine ⟨hstop, ?_⟩
    rw [hafter, hs]
    cases stop with
    | halt => exact ⟨rfl, rfl, rfl⟩
    | invalid opcode address => exact ⟨rfl, rfl, rfl⟩

end Cpu

end Micro80
