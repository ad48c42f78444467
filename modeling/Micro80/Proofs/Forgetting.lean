/-
  Micro80.Proofs.Forgetting — a cold reset forgets. What it leaves is determined by the
  dialect and the port inputs, but for the cycle counter (`reset_cold`), which execution
  never looks at.

  Proved, for any two processors of one dialect with the same port inputs:
  - `cold_reset_forgets`: after a cold reset of both no session tells them apart but by
    the cycles that they had spent before it.
-/

import Micro80.Proofs.Session

namespace Micro80

open Bus (Flat)

namespace Cpu

/-- A processor that has never run: every register and cell zero, no output, no cycles. -/
def blank (dialect : Dialect) (inputs : Vector Byte 256) : Cpu Flat := ⟨{}, 0, dialect, { inputs }⟩

theorem reset_cold (c : Cpu Flat) : c.reset true = (blank c.dialect c.bus.inputs).spent c.cycles := by
  obtain ⟨regs, cycles, dialect, bus⟩ := c
  simp only [reset, if_true, blank, spent, Nat.zero_add]
  rfl

/-- After a cold reset nothing is left of what two processors went through, and whatever is
    done with both they stay equal but for the cycles that they had spent before. -/
theorem cold_reset_forgets {c c' : Cpu Flat} (hd : c.dialect = c'.dialect) (hi : c.bus.inputs = c'.bus.inputs) :
    (∀ k ∈ [c, c'], (k.reset true).regs = {} ∧ (∀ a, (k.reset true).bus.memory.get a = 0) ∧
      (k.reset true).bus.outputs = #[]) ∧
    ∀ ops, (c.reset true).answers ops = (c'.reset true).answers ops ∧
      ((c.reset true).acted ops).regs = ((c'.reset true).acted ops).regs ∧
      (∀ a, ((c.reset true).acted ops).bus.memory.get a = ((c'.reset true).acted ops).bus.memory.get a) ∧
      ((c.reset true).acted ops).bus.outputs = ((c'.reset true).acted ops).bus.outputs ∧
      ((c.reset true).acted ops).bus.inputs = ((c'.reset true).acted ops).bus.inputs ∧
      ∃ n, ((c.reset true).acted ops).cycles = c.cycles + n ∧ ((c'.reset true).acted ops).cycles = c'.cycles + n := by
  have hsame : blank c'.dialect c'.bus.inputs = blank c.dialect c.bus.inputs := by rw [hd, hi]
  refine ⟨?_, ?_⟩
  · intro k _
    rw [reset_cold]
    exact ⟨rfl, Memory.get_zero, rfl⟩
  · intro ops
    rw [reset_cold c, reset_cold c', hsame, answers_spent, answers_spent, acted_spent, acted_spent]
    -- both are the blank processor after the session, each with its own cycles added
    refine ⟨rfl, rfl, fun _ => rfl, rfl, rfl, ((blank c.dialect c.bus.inputs).acted ops).cycles, ?_, ?_⟩
    · exact Nat.add_comm _ _
    · exact Nat.add_comm _ _

/-- One processor has run for 40 cycles and written to a port, the other is new. The session
    loads a program that fills a register and one that stores it, warm-resets in between, and
    runs into the cleared memory behind them. -/
theorem worn_processor_forgets :
    let worn : Cpu Flat :=
      ⟨{ a := 0x12, f := { c := true }, sp := 0xFFFE, iff2 := true }, 40, .z80,
        { memory := Memory.zero.set 0x8000 0x76, outputs := #[(1, 2)] }⟩
    let fresh : Cpu Flat := ⟨{}, 0, .z80, {}⟩
    let ops := [Operation.load 0 [0x3E, 0x07], .step, .reset false, .load 0 [0x32, 0x00, 0x80], .step, .step]
    worn.dialect = fresh.dialect ∧ worn.bus.inputs = fresh.bus.inputs ∧
      (worn.reset true).regs = {} ∧ (worn.reset true).answers ops = (fresh.reset true).answers ops ∧
      ((worn.reset true).acted ops).regs = ((fresh.reset true).acted ops).regs ∧
      ∃ n, ((worn.reset true).acted ops).cycles = 40 + n ∧ ((fresh.reset true).acted ops).cycles = 0 + n := by
  intro worn fresh ops
  have hd : worn.dialect = fresh.dialect := rfl
  have hi : worn.bus.inputs = fresh.bus.inputs := rfl
  obtain ⟨hreset, hruns⟩ := cold_reset_forgets hd hi
  obtain ⟨hanswers, hregs, -, -, -, hcycles⟩ := hruns ops
  exact ⟨hd, hi, (hreset worn List.mem_cons_self).1, hanswers, hregs, hcycles⟩

end Cpu

end Micro80
