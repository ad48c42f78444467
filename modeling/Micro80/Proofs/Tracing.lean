/-
  Micro80.Proofs.Tracing — a trace against plain steps. What a trace notes before a step
  is read off the processor as the step finds it (`announcement`), code that the run has
  itself written included, and reading it changes nothing (`currentLine_flat`). One step
  is one entry (`trace?_of_go`, `trace?_of_stop`).

  Proved, for every state of either dialect from which a run comes to a stop:
  - `trace_eq_steps`: the trace has one entry for each step up to the one that stops, that
    one included, and leaves the processor where the steps leave it.
-/

import Micro80.Execution.Trace
import Micro80.Proofs.Hosting
import Micro80.Proofs.Text

namespace Micro80

open Bus (Flat)

namespace Cpu

/-! ## One entry -/

def announcement (c : Cpu Flat) : String :=
  Text.Hex.word c.regs.pc ++ ": " ++ (Disassembly.read c.dialect c.regs.pc c.bus).1.text

theorem currentLine_flat (c : Cpu Flat) : c.currentLine = (c.announcement, c) := by
  obtain ⟨regs, cycles, dialect, bus⟩ := c
  have hr : Disassembly.read dialect regs.pc bus = ((Disassembly.read dialect regs.pc bus).1, bus) :=
    Prod.ext rfl (Disassembly.read_snd dialect regs.pc bus)
  unfold currentLine disassemble disassembly announcement
  simp only [pc]
  rw [hr]

section
variable {c : Cpu Flat} (limit : Nat)

theorem trace?_of_stop {stop : Stop} (h : c.step.1 = some stop) :
    c.trace? (limit + 1) = (some ⟨[c.announcement], [c.step.2.dump], stop⟩, c.step.2) := by
  have hs : c.step = (some stop, c.step.2) := Prod.ext h rfl
  rw [trace?, currentLine_flat]
  simp only
  rw [hs]

theorem trace?_of_go (h : c.step.1 = none) :
    c.trace? (limit + 1) =
      ((c.step.2.trace? limit).1.map (·.after c.announcement c.step.2.dump), (c.step.2.trace? limit).2) := by
  have hs : c.step = (none, c.step.2) := Prod.ext h rfl
  rw [trace?, currentLine_flat]
  simp only
  rw [hs]

end

/-! ## Runs to a stop -/

theorem dialect_after (c : Cpu Flat) (n : Nat) : (c.after n).dialect = c.dialect := by
  induction n generalizing c with
  | zero => rfl
  | succ n ih => exact (ih c.step.2).trans (dialect_step c)

/-- The first step that stops is the one behind `n` others. -/
structure StopsBehind (c : Cpu Flat) (n : Nat) (stop : Stop) : Prop where
  goes : ∀ k < n, (c.after k).step.1 = none
  stops : (c.after n).step.1 = some stop

theorem StopsBehind.next {c : Cpu Flat} {n : Nat} {stop : Stop} (h : c.StopsBehind (n + 1) stop) :
    c.step.1 = none ∧ c.step.2.StopsBehind n stop := by
  refine ⟨h.goes 0 (by omega), ?_, h.stops⟩
  intro k hk
  exact h.goes (k + 1) (by omega)

/-- What is noted of `n` steps: a line before each, the registers after each. -/
def noted (c : Cpu Flat) (n : Nat) (stop : Stop) : Trace :=
  ⟨(List.range n).map fun k => (c.after k).announcement, (List.range n).map fun k => (c.after (k + 1)).dump, stop⟩

theorem after_noted (c : Cpu Flat) (n : Nat) (stop : Stop) :
    (c.step.2.noted n stop).after c.announcement c.step.2.dump = c.noted (n + 1) stop := by
  simp only [noted, Trace.after, List.range_succ_eq_map, List.map_cons, List.map_map]
  rfl

theorem trace?_of_stopsBehind {n : Nat} {stop : Stop} :
    ∀ {c : Cpu Flat} {limit : Nat}, c.StopsBehind n stop → n < limit →
      c.trace? limit = (some (c.noted (n + 1) stop), c.after (n + 1)) := by
  induction n with
  | zero =>
    intro c limit h hl
    obtain ⟨limit, rfl⟩ : ∃ l, limit = l + 1 := ⟨limit - 1, by omega⟩
    have hstop : c.step.1 = some stop := h.stops
    rw [trace?_of_stop limit hstop]
    rfl
  | succ n ih =>
    intro c limit h hl
    obtain ⟨limit, rfl⟩ : ∃ l, limit = l + 1 := ⟨limit - 1, by omega⟩
    obtain ⟨hgo, hrest⟩ := h.next
    rw [trace?_of_go limit hgo, ih hrest (by omega), Option.map_some, after_noted]
    rfl

/-- A limit that the run outlasts ends the trace with nothing to show. -/
theorem trace?_of_going {limit : Nat} :
    ∀ {c : Cpu Flat}, (∀ k < limit, (c.after k).step.1 = none) → c.trace? limit = (none, c.after limit) := by
  induction limit with
  | zero =>
    intro c _
    rfl
  | succ limit ih =>
    intro c h
    have hgo : c.step.1 = none := h 0 (by omega)
    have hrest : ∀ k < limit, (c.step.2.after k).step.1 = none := fun k hk => h (k + 1) (by omega)
    rw [trace?_of_go limit hgo, ih hrest]
    rfl

/-- Of a run of which the step behind `n` others is the first to stop, the trace has `n + 1`
    entries, and it leaves the processor where as many steps do. A limit below that gives no
    trace, and is where the processor is left. -/
theorem trace_eq_steps {c : Cpu Flat} {n : Nat} {stop : Stop} (hgo : ∀ k < n, (c.after k).step.1 = none)
    (hstop : (c.after n).step.1 = some stop) (limit : Nat) :
    c.trace? limit =
      if n < limit then
        (some
          { instructions := (List.range (n + 1)).map fun k =>
              Text.Hex.word (c.after k).regs.pc ++ ": " ++
                (Disassembly.read c.dialect (c.after k).regs.pc (c.after k).bus).1.text
            registers := (List.range (n + 1)).map fun k => (c.after (k + 1)).regs.dump
            stop },
          c.after (n + 1))
      else (none, c.after limit) := by
  by_cases hl : n < limit
  · rw [if_pos hl, trace?_of_stopsBehind ⟨hgo, hstop⟩ hl]
    simp only [noted, announcement, dialect_after, dump]
  · rw [if_neg hl]
    apply trace?_of_going
    intro k hk
    exact hgo k (by omega)

/-- The first byte stores a halt behind itself, where a `nop` was. -/
theorem trace_of_written_halt :
    let c : Cpu Flat := ⟨{ a := 0x76, l := 0x01 }, 0, .z80, { memory := Memory.zero.set 0 0x77 }⟩
    (∀ k < 1, (c.after k).step.1 = none) ∧ (c.after 1).step.1 = some .halt ∧
      (c.trace? 5).1.map (·.instructions) = some ["0000: ld    (hl),a", "0001: halt      "] := by
  intro c
  have hgo : ∀ k < 1, (c.after k).step.1 = none := by
    decide +kernel
  have hstop : (c.after 1).step.1 = some .halt := by
    decide +kernel
  refine ⟨hgo, hstop, ?_⟩
  rw [trace_eq_steps hgo hstop 5]
  decide +kernel

end Cpu

end Micro80
