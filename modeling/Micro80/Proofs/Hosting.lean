/-
  Micro80.Proofs.Hosting — a processor in the hands of its host, whatever the bus. A step
  says that there is no instruction, or performs one (`invalid_or_execute`). Between steps
  the host may reset the processor, point it somewhere and do with the bus what it likes
  (`Event`); `through` is the processor after any number of such events, and `stepped` are
  the states in which it was stepped.
-/

import Micro80.Proofs.Decoding

namespace Micro80

variable {β : Type}

/-- What a host does with a processor. With the bus it does anything at all. -/
inductive Event (β : Type) where
  | step
  | reset (cold : Bool)
  | setPc (address : Word)
  | change (g : β → β)

namespace Cpu

variable [PortBus β]

/-- A step says that there is no instruction and leaves the registers alone, or performs one. -/
theorem invalid_or_execute (c : Cpu β) :
    (∃ opcode, (decode c.dialect c.regs.pc c.bus).1 = .error opcode ∧
      c.step = (some (.invalid opcode c.regs.pc), { c with bus := (decode c.dialect c.regs.pc c.bus).2 })) ∨
    ∃ i, (decode c.dialect c.regs.pc c.bus).1 = .ok i ∧
      c.step = execute i { c with bus := (decode c.dialect c.regs.pc c.bus).2 } := by
  obtain ⟨regs, cycles, dialect, bus⟩ := c
  cases h : decode dialect regs.pc bus with
  | mk result bus' =>
    cases result with
    | error opcode => exact .inl ⟨opcode, rfl, by simp only [step, h]⟩
    | ok i => exact .inr ⟨i, rfl, by simp only [step, h]⟩

theorem dialect_step (c : Cpu β) : c.step.2.dialect = c.dialect := by
  rcases c.invalid_or_execute with ⟨opcode, -, hs⟩ | ⟨i, -, hs⟩
  · rw [hs]
  · rw [hs]
    rfl

def handle (c : Cpu β) : Event β → Cpu β
  | .step => c.step.2
  | .reset cold => c.reset cold
  | .setPc a => c.setPc a
  | .change g => { c with bus := g c.bus }

def through (c : Cpu β) : List (Event β) → Cpu β
  | [] => c
  | e :: events => (c.handle e).through events

/-- The states in which it was stepped, in order. -/
def stepped (c : Cpu β) : List (Event β) → List (Cpu β)
  | [] => []
  | .step :: events => c :: c.step.2.stepped events
  | e :: events => (c.handle e).stepped events

theorem dialect_handle (c : Cpu β) (e : Event β) : (c.handle e).dialect = c.dialect := by
  cases e with
  | step => exact c.dialect_step
  | reset cold => cases cold <;> rfl
  | setPc a => rfl
  | change g => rfl

theorem dialect_through (c : Cpu β) (events : List (Event β)) : (c.through events).dialect = c.dialect := by
  induction events generalizing c with
  | nil => rfl
  | cons e events ih => rw [through, ih, dialect_handle]

end Cpu

end Micro80
