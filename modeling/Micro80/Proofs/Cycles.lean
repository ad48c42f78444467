/-
  Micro80.Proofs.Cycles — the cycle counter. Whatever an instruction comes to, its cost is
  one of two that stand beside it in its page, and either is between 4 and 23
  (`cost_bounds`). A step that finds no instruction costs nothing, and nothing but a step
  touches the counter.

  Proved, for every bus, either dialect and everything that a host can do:
  - `cycles_bounded`: a processor that was new once has spent between 4 and 23 cycles on
    each instruction that it performed. So 64 bits are enough for the counter, for as many
    steps as 23 goes into the largest number that they hold.
-/

import Micro80.Proofs.Refresh

namespace Micro80

open Bus (Flat)

/-! ## Costs -/

theorem costs_of_slot {p : Page} {opcode : Byte} {d : Descriptor} (h : p.slot opcode = .instruction d) :
    (4 ≤ d.cycles ∧ d.cycles ≤ 23) ∧ 4 ≤ d.cyclesSkipped ∧ d.cyclesSkipped ≤ 23 := by
  have checked : ∀ o, (p.slot o).all (fun d =>
      (4 ≤ d.cycles ∧ d.cycles ≤ 23) ∧ 4 ≤ d.cyclesSkipped ∧ d.cyclesSkipped ≤ 23) = true := by
    cases p <;> decide +kernel
  exact of_decide_eq_true (Slot.of_all (checked opcode) h)

theorem Instruction.cost_bounds {i : Instruction} {opcode : Byte} (h : i.page.slot opcode = .instruction i.descriptor)
    (o : Outcome) : 4 ≤ i.cost o ∧ i.cost o ≤ 23 := by
  obtain ⟨hfull, hskipped⟩ := costs_of_slot h
  cases o with
  | skip => exact hskipped
  | next | jump t | halt => exact hfull

namespace Cpu

variable {β : Type} [PortBus β]

/-! ## Steps -/

/-- Whether a step finds an instruction to perform, a halt included. -/
def performs (c : Cpu β) : Bool := !c.step.1.any Stop.isInvalid

theorem performs_of_execute {c : Cpu β} {i : Instruction} {b : β} (hs : c.step = execute i { c with bus := b }) :
    c.performs = true := by
  rw [performs, hs, Bool.not_eq_true', Option.any_eq_false]
  intro stop h
  cases stop with
  | halt => rfl
  | invalid opcode address => exact absurd h (execute_ne_invalid i _ opcode address)

/-- A step that performs an instruction charges one of its two costs; any other is free. -/
theorem cycles_step (c : Cpu β) :
    if c.performs then c.cycles + 4 ≤ c.step.2.cycles ∧ c.step.2.cycles ≤ c.cycles + 23
    else c.step.2.cycles = c.cycles := by
  rcases c.invalid_or_execute with ⟨opcode, -, hs⟩ | ⟨i, hd, hs⟩
  · have hn : c.performs = false := by
      rw [performs, hs]
      rfl
    rw [if_neg (Bool.eq_false_iff.mp hn), hs]
  · obtain ⟨opcode, hslot⟩ := exists_slot_of_decode hd
    obtain ⟨o, ho⟩ : ∃ o, c.step.2.cycles = c.cycles + i.cost o := ⟨_, by rw [hs]; rfl⟩
    obtain ⟨hlow, hhigh⟩ := Instruction.cost_bounds hslot o
    rw [if_pos (performs_of_execute hs), ho]
    exact ⟨Nat.add_le_add_left hlow _, Nat.add_le_add_left hhigh _⟩

theorem cycles_reset (c : Cpu β) (cold : Bool) : (c.reset cold).cycles = c.cycles := by
  cases cold <;> rfl

/-- The counter never goes back. -/
theorem cycles_le_handle (c : Cpu β) (e : Event β) : c.cycles ≤ (c.handle e).cycles := by
  cases e with
  | step =>
    have hs := c.cycles_step
    show c.cycles ≤ c.step.2.cycles
    split at hs <;> omega
  | reset cold => exact Nat.le_of_eq (c.cycles_reset cold).symm
  | setPc a | change g => exact Nat.le_refl _

/-! ## Sessions -/

def performed (c : Cpu β) (events : List (Event β)) : Nat := (c.stepped events).countP performs

theorem performed_step (c : Cpu β) (events : List (Event β)) :
    c.performed (.step :: events) = c.step.2.performed events + if c.performs then 1 else 0 :=
  List.countP_cons ..

/-- What a session costs, whatever was spent before it. -/
theorem cycles_through (c : Cpu β) (events : List (Event β)) :
    c.cycles + 4 * c.performed events ≤ (c.through events).cycles ∧
      (c.through events).cycles ≤ c.cycles + 23 * c.performed events := by
  induction events generalizing c with
  | nil => exact ⟨Nat.le_refl _, Nat.le_refl _⟩
  | cons e events ih =>
    cases e with
    | step =>
      have hs := c.cycles_step
      obtain ⟨hlow, hhigh⟩ := ih c.step.2
      rw [performed_step, through, handle]
      by_cases hp : c.performs = true
      · rw [if_pos hp] at hs ⊢
        omega
      · rw [if_neg hp] at hs ⊢
        omega
    | reset cold =>
      rw [← c.cycles_reset cold]
      exact ih (c.reset cold)
    | setPc a => exact ih (c.setPc a)
    | change g => exact ih { c with bus := g c.bus }

/-- No step of a session leaves more in the counter than all of them can have cost. -/
theorem cycles_of_mem_stepped {c k : Cpu β} {events : List (Event β)} (h : k ∈ c.stepped events) :
    k.step.2.cycles ≤ c.cycles + 23 * (c.stepped events).length := by
  induction events generalizing c with
  | nil => cases h
  | cons e events ih =>
    cases e with
    | step =>
      have hs : c.step.2.cycles ≤ c.cycles + 23 := by
        have hs := c.cycles_step
        split at hs <;> omega
      rw [stepped, List.length_cons]
      rcases List.mem_cons.mp h with rfl | hrest
      · omega
      · have hk := ih hrest
        omega
    | reset cold =>
      rw [← c.cycles_reset cold]
      exact ih h
    | setPc a => exact ih (c := c.setPc a) h
    | change g => exact ih (c := { c with bus := g c.bus }) h

/-- A processor that was new once has spent between 4 and 23 cycles on each instruction that it
    performed, and nothing else changes the counter. In a session of as many steps as 23 goes into
    the largest number of 64 bits, no sum that the counter takes is larger than that. -/
theorem cycles_bounded (d : Dialect) (b : β) (events : List (Event β)) :
    let c := new d b
    4 * c.performed events ≤ (c.through events).cycles ∧
      (c.through events).cycles ≤ 23 * c.performed events ∧
      (∀ (k : Cpu β) (e : Event β), k.cycles ≤ (k.handle e).cycles) ∧
      (∀ k : Cpu β, if k.performs then k.cycles < k.step.2.cycles else k.step.2.cycles = k.cycles) ∧
      ((c.stepped events).length ≤ (2 ^ 64 - 1) / 23 → ∀ k ∈ c.stepped events, k.step.2.cycles < 2 ^ 64) := by
  intro c
  have hstart : c.cycles = 0 := rfl
  obtain ⟨hlow, hhigh⟩ := c.cycles_through events
  refine ⟨by omega, by omega, cycles_le_handle, ?_, ?_⟩
  · intro k
    have hs := k.cycles_step
    by_cases hp : k.performs = true
    · rw [if_pos hp] at hs ⊢
      omega
    · rw [if_neg hp] at hs ⊢
      exact hs
  · intro hlength k hk
    have hbound := cycles_of_mem_stepped hk
    omega

/-- `inc (ix+0)`, which is dearest, then a reset, a byte pair that is no instruction, and `nop`. -/
theorem cycles_bounded_reset :
    let c : Cpu Flat := new .z80 { memory := Memory.zero.load 0x10 [0xDD, 0x34, 0x00, 0xED, 0xFF] }
    let events : List (Event Flat) := [.setPc 0x10, .step, .reset false, .setPc 0x13, .step, .setPc 0, .step]
    c.performed events = 2 ∧ (c.stepped events).length ≤ (2 ^ 64 - 1) / 23 ∧
      8 ≤ (c.through events).cycles ∧ (c.through events).cycles ≤ 46 ∧
      ∀ k ∈ c.stepped events, k.step.2.cycles < 2 ^ 64 := by
  intro c events
  have hm : c.performed events = 2 := by decide +kernel
  have hn : (c.stepped events).length ≤ (2 ^ 64 - 1) / 23 := by decide +kernel
  obtain ⟨hlow, hhigh, -, -, hfits⟩ := cycles_bounded .z80 c.bus events
  have hlow : 4 * c.performed events ≤ (c.through events).cycles := hlow
  have hhigh : (c.through events).cycles ≤ 23 * c.performed events := hhigh
  exact ⟨hm, hn, by omega, by omega, hfits hn⟩

end Cpu

end Micro80
