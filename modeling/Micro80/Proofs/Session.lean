/-
  Micro80.Proofs.Session — what a host does with a processor on flat memory. It steps
  and resets it, sets the program counter, loads memory and gives ports their values
  (`Operation`); a session is any number of these in any order. `answers` is what the
  host is told along the way, and `acted` the processor that is left.

  Execution never looks at the cycle counter: a processor that has spent more goes
  through the same session, and is ahead by the same at its end (`acted_spent`).
-/

import Micro80.Execution.Cpu
import Micro80.Host.Flat

namespace Micro80

open Bus (Flat)

inductive Operation where
  | step
  | reset (cold : Bool)
  | setPc (address : Word)
  | load (address : Word) (bytes : List Byte)
  | setInput (port value : Byte)
  deriving DecidableEq, Repr

namespace Cpu

def act (c : Cpu Flat) : Operation → Option Stop × Cpu Flat
  | .step => c.step
  | .reset cold => (none, c.reset cold)
  | .setPc a => (none, c.setPc a)
  | .load a bytes => (none, { c with bus := c.bus.load a bytes })
  | .setInput port v => (none, { c with bus := c.bus.setInput port v })

def acted (c : Cpu Flat) : List Operation → Cpu Flat
  | [] => c
  | op :: ops => (c.act op).2.acted ops

/-- What each operation of a session came to, in order. -/
def answers (c : Cpu Flat) : List Operation → List (Option Stop)
  | [] => []
  | op :: ops => (c.act op).1 :: (c.act op).2.answers ops

/-! ## The cycle counter -/

section
variable {β : Type}

def spent (c : Cpu β) (n : Nat) : Cpu β := { c with cycles := c.cycles + n }

variable [PortBus β]

theorem execute_spent (i : Instruction) (c : Cpu β) (n : Nat) :
    execute i (c.spent n) = ((execute i c).1, (execute i c).2.spent n) := by
  obtain ⟨regs, cycles, dialect, bus⟩ := c
  obtain ⟨o, m, hm⟩ : ∃ o m, i.descriptor.action.perform (i.site regs.pc) ⟨regs.refresh i.page.width, bus⟩ = (o, m) :=
    ⟨_, _, rfl⟩
  simp only [execute, spent, hm]
  rw [Nat.add_right_comm]

theorem step_spent (c : Cpu β) (n : Nat) : (c.spent n).step = (c.step.1, c.step.2.spent n) := by
  obtain ⟨regs, cycles, dialect, bus⟩ := c
  cases h : decode dialect regs.pc bus with
  | mk result bus' =>
    cases result with
    | error opcode =>
      simp only [step, spent, h]
    | ok i =>
      simp only [step, spent, h]
      exact execute_spent i ⟨regs, cycles, dialect, bus'⟩ n

end

theorem act_spent (c : Cpu Flat) (op : Operation) (n : Nat) :
    (c.spent n).act op = ((c.act op).1, (c.act op).2.spent n) := by
  cases op with
  | step => exact step_spent c n
  | reset cold => cases cold <;> rfl
  | setPc a => rfl
  | load a bytes => rfl
  | setInput port v => rfl

theorem acted_spent (c : Cpu Flat) (ops : List Operation) (n : Nat) :
    (c.spent n).acted ops = (c.acted ops).spent n := by
  induction ops generalizing c with
  | nil => rfl
  | cons op ops ih =>
    rw [acted, act_spent]
    exact ih (c.act op).2

theorem answers_spent (c : Cpu Flat) (ops : List Operation) (n : Nat) :
    (c.spent n).answers ops = c.answers ops := by
  induction ops generalizing c with
  | nil => rfl
  | cons op ops ih =>
    rw [answers, answers, act_spent]
    exact congrArg _ (ih (c.act op).2)

end Cpu

end Micro80
