/-
  Micro80.Proofs.Placement — an action at two places. Of the place where it stands an
  action sees its operand bytes, and its own address in two ways only: where to go on
  from, and what a call stores (`links`).

  Proved, for every state of flat memory and any two places with the same operand bytes:
  - `perform_alike_of_isWide`: an action on pairs does the same at both.
  - `perform_alike`: an action that stores no return address leaves the same machine.
  - `perform_links`: one that stores it leaves it on the stack, and changes nothing else.
  - `perform_leaps`, `perform_moved`: an action goes on at the same address from both, or
    as far from both.
-/

import Micro80.Proofs.Tracking

namespace Micro80

open Bus (Flat)

/-- The address of the memory operand does not hang on the flags. -/
theorem Site.cell_flags (s : Site) (m : Machine Flat) (f : Flags) : s.cell ⟨{ m.regs with f }, m.bus⟩ = s.cell m := by
  unfold Site.cell
  cases s.pointer <;> rfl

/-! ## The same operands elsewhere -/

/-- At `s` and at `s'` stand the same operand bytes, behind the same pointer. -/
structure Site.Alike (s s' : Site) (m : Memory) : Prop where
  pointer : s'.pointer = s.pointer
  word : m.getWord s'.operands = m.getWord s.operands

namespace Site.Alike

variable {s s' : Site} {m : Machine Flat} (h : s.Alike s' m.bus.memory)
include h

theorem first : m.bus.memory.get s'.operands = m.bus.memory.get s.operands :=
  (Memory.getWord_inj.mp h.word).1

theorem second : m.bus.memory.get (s'.operands + 1) = m.bus.memory.get (s.operands + 1) :=
  (Memory.getWord_inj.mp h.word).2

theorem cell : s'.cell m = s.cell m := by
  unfold Site.cell
  rw [h.pointer, h.first]

theorem byte (p : Place) : m.byte s' p = m.byte s p := by
  cases p with
  | reg r => rfl
  | cell => exact congrArg m.bus.memory.get h.cell

theorem setByte (f : Flags) (v : Byte) (p : Place) :
    Machine.setByte ⟨{ m.regs with f }, m.bus⟩ s' v p = Machine.setByte ⟨{ m.regs with f }, m.bus⟩ s v p := by
  cases p with
  | reg x => rfl
  | cell => simp only [Machine.setByte, Site.cell_flags, h.cell]

theorem immediate : Effect.immediate s' m = Effect.immediate s m := by
  by_cases hx : s.pointer = .hl
  · rw [Effect.immediate_apply_hl m hx, Effect.immediate_apply_hl m (h.pointer.trans hx), h.first]
  · simp only [Effect.immediate_apply, h.pointer, if_neg hx, h.second]

theorem immediateWord : Effect.immediateWord s' m = Effect.immediateWord s m :=
  congrArg (·, m) h.word

end Site.Alike

/-! ## Actions -/

namespace Action

def links (f : Flags) : Action → Bool
  | call | restart _ => true
  | callIf cc => cc.holds f
  | _ => false

section
variable {s : Site} {m : Machine Flat}

theorem relative_apply : Effect.relative s m = (s.next.displace (m.bus.memory.get s.operands), m) := rfl

/-- What repeats in a block, and where it stands, is seen in the outcome alone. -/
theorem perform_copyBlock_snd (k : Block) (s' : Site) :
    ((copyBlock k).perform s' m).2 = ((copyBlock k).perform s m).2 := by
  simp only [perform, copyBlockStep, Effect.bind_apply, Effect.regs_apply, Effect.read_apply, Effect.write_apply,
    Effect.modifyRegs_apply, Effect.pure_apply]

theorem perform_searchBlock_snd (k : Block) (s' : Site) :
    ((searchBlock k).perform s' m).2 = ((searchBlock k).perform s m).2 := by
  simp only [perform, searchBlockStep, Effect.bind_apply, Effect.regs_apply, Effect.read_apply,
    Effect.modifyRegs_apply, Effect.pure_apply]

theorem callTo_snd (target : Word) :
    (callTo s target m).2 =
      ⟨{ m.regs with sp := m.regs.sp - 2 }, m.bus.withMemory (m.bus.memory.setWord (m.regs.sp - 2) s.next)⟩ := by
  simp only [callTo, Effect.bind_apply, Effect.push_apply, Effect.pure_apply]

/-- A return address is stored where the stack grows to, and nothing else changes. -/
theorem perform_links {a : Action} (ha : a.links m.regs.f = true) :
    (a.perform s m).2 =
      ⟨{ m.regs with sp := m.regs.sp - 2 }, m.bus.withMemory (m.bus.memory.setWord (m.regs.sp - 2) s.next)⟩ := by
  cases a with
  | call => exact callTo_snd _
  | callIf cc =>
    rw [perform_callIf ha]
    exact callTo_snd _
  | restart v => exact callTo_snd _
  | _ => cases ha

end

variable {s s' : Site} {m : Machine Flat}

/-- An action on pairs sees its operands alone. -/
theorem perform_alike_of_isWide (h : s.Alike s' m.bus.memory) {a : Action} (ha : a.isWide = true) :
    a.perform s' m = a.perform s m := by
  cases a with
  | loadPairImmediate p | storePairAbsolute p | fetchPairAbsolute p =>
    simp only [perform, Effect.bind_apply, h.immediateWord, h.pointer]
  | loadStackPointer | push p | pop p | exchangeStack | incrementPair p | decrementPair p | addPair p | jumpPointer =>
    simp only [perform, sumPairs, Effect.bind_apply, h.pointer]
  | _ => cases ha

/-- An action that stores no return address does the same wherever its operands are the same. -/
theorem perform_alike (h : s.Alike s' m.bus.memory) {a : Action} (ha : a.links m.regs.f = false) :
    (a.perform s' m).2 = (a.perform s m).2 := by
  cases a with
  | load dst src =>
    simp only [perform, Effect.bind_apply, Effect.get_apply, Effect.set_apply, Effect.pure_apply, h.byte]
    exact h.setByte m.regs.f _ dst
  | loadImmediate dst =>
    simp only [perform, Effect.bind_apply, h.immediate, Effect.immediate_apply, Effect.set_apply, Effect.pure_apply]
    exact h.setByte m.regs.f _ dst
  | increment dst | decrement dst =>
    simp only [perform, Effect.bind_apply, Effect.update_apply, Effect.pure_apply, h.byte]
    exact h.setByte _ _ dst
  | combine op src => simp only [perform, Effect.bind_apply, Effect.get_apply, h.byte]
  | combineImmediate op | outputImmediate | inputImmediate => simp only [perform, Effect.bind_apply, h.immediate]
  | storeAbsolute | fetchAbsolute => simp only [perform, Effect.bind_apply, h.immediateWord]
  | storeIndirect p | fetchIndirect p | addPairCarry p | subtractPairCarry p =>
    simp only [perform, sumPairs, Effect.bind_apply, h.pointer]
  | loadPairImmediate p | storePairAbsolute p | fetchPairAbsolute p | loadStackPointer | push p | pop p
  | exchangeStack | incrementPair p | decrementPair p | addPair p | jumpPointer =>
    exact congrArg Prod.snd (perform_alike_of_isWide h rfl)
  | copyBlock k => exact perform_copyBlock_snd k s'
  | searchBlock k => exact perform_searchBlock_snd k s'
  | jumpRelative | jumpRelativeIf cc | countDown =>
    simp only [perform, Effect.bind_apply, relative_apply, Effect.regs_apply, Effect.modifyRegs_apply,
      Effect.pure_apply]
  | callIf cc =>
    have hf : ¬cc.holds m.regs.f = true := Bool.eq_false_iff.mp ha
    rw [perform_callIf_skip hf, perform_callIf_skip hf]
  | call | restart v => cases ha
  | _ => rfl

/-- The registers never tell the places apart. -/
theorem regs_perform_alike (h : s.Alike s' m.bus.memory) (a : Action) :
    (a.perform s' m).2.regs = (a.perform s m).2.regs := by
  cases ha : a.links m.regs.f with
  | true => rw [perform_links ha, perform_links ha]
  | false => rw [perform_alike h ha]

end Action

/-! ## Outcomes -/

def Outcome.moved (δ : Word) : Outcome → Outcome
  | jump t => .jump (t + δ)
  | o => o

theorem Outcome.moved_branch (δ : Word) (taken : Bool) (t : Word) :
    (branch taken t).moved δ = branch taken (t + δ) := by
  cases taken <;> rfl

/-- A block instruction that repeats goes back to its own address. -/
theorem Block.outcome_moved {k : Block} {s s' : Site} (hstart : s'.start = s.start + (s'.start - s.start))
    (again : Bool) :
    k.outcome s' again = (k.outcome s again).moved (s'.start - s.start) := by
  unfold outcome
  cases k.repeats with
  | false => rfl
  | true => rw [if_pos rfl, if_pos rfl, Outcome.moved_branch, ← hstart]

namespace Action

def isControl : Action → Bool
  | copyBlock _ | searchBlock _ | halt | jump | jumpIf _ | jumpPointer | jumpRelative | jumpRelativeIf _ | countDown
  | call | callIf _ | ret | retIf _ | retInterrupt | restart _ => true
  | _ => false

/-- Whether an action goes on at an address that does not hang on its own. -/
def leaps (f : Flags) : Action → Bool
  | jump | jumpPointer | call | ret | retInterrupt | restart _ => true
  | jumpIf cc | callIf cc | retIf cc => cc.holds f
  | _ => false

variable {s s' : Site} {m : Machine Flat}

theorem perform_next {a : Action} (ha : a.isControl = false) : (a.perform s m).1 = .next := by
  cases a with
  | copyBlock _ | searchBlock _ | halt | jump | jumpIf _ | jumpPointer | jumpRelative | jumpRelativeIf _ | countDown
  | call | callIf _ | ret | retIf _ | retInterrupt | restart _ => cases ha
  | _ => rfl

/-- An action that leaps goes on at the same address from everywhere. -/
theorem perform_leaps (h : s.Alike s' m.bus.memory) {a : Action} (ha : a.leaps m.regs.f = true) :
    ∃ t, (a.perform s m).1 = .jump t ∧ (a.perform s' m).1 = .jump t := by
  have hword : m.bus.memory.getWord s'.operands = m.bus.memory.getWord s.operands := h.word
  cases a with
  | jump | call => exact ⟨m.bus.memory.getWord s.operands, rfl, congrArg Outcome.jump hword⟩
  | jumpIf cc =>
    refine ⟨m.bus.memory.getWord s.operands, congrArg (Outcome.branch · _) ha, ?_⟩
    rw [← hword]
    exact congrArg (Outcome.branch · _) ha
  | callIf cc =>
    rw [perform_callIf ha, perform_callIf ha]
    exact ⟨m.bus.memory.getWord s.operands, rfl, congrArg Outcome.jump hword⟩
  | jumpPointer =>
    refine ⟨m.regs.pointer s.pointer, rfl, ?_⟩
    rw [← h.pointer]
    rfl
  | ret | retInterrupt => exact ⟨m.bus.memory.getWord m.regs.sp, rfl, rfl⟩
  | retIf cc =>
    rw [perform_retIf ha, perform_retIf ha]
    exact ⟨m.bus.memory.getWord m.regs.sp, rfl, rfl⟩
  | restart v => exact ⟨v.setWidth 16, rfl, rfl⟩
  | _ => cases ha

/-- Any other action goes on as far from its own address. -/
theorem perform_moved (h : s.Alike s' m.bus.memory) (hnext : s'.next - s'.start = s.next - s.start) {a : Action}
    (ha : a.leaps m.regs.f = false) : (a.perform s' m).1 = (a.perform s m).1.moved (s'.start - s.start) := by
  have hstart : s'.start = s.start + (s'.start - s.start) := by bv_omega
  have hrelative : s'.next.displace (m.bus.memory.get s'.operands) =
      s.next.displace (m.bus.memory.get s.operands) + (s'.start - s.start) := by
    have hbehind : s'.next = s.next + (s'.start - s.start) := by bv_omega
    rw [h.first, hbehind, Word.displace, Word.displace, BitVec.add_assoc, BitVec.add_comm (s'.start - s.start),
      BitVec.add_assoc]
  cases a with
  | jumpRelative => exact congrArg Outcome.jump hrelative
  | jumpRelativeIf cc | countDown =>
    simp only [perform, Effect.bind_apply, relative_apply, Effect.regs_apply, Effect.modifyRegs_apply,
      Effect.pure_apply, hrelative, Outcome.moved_branch]
  | copyBlock k => exact Block.outcome_moved hstart _
  | searchBlock k => exact Block.outcome_moved hstart _
  | jumpIf cc =>
    have hskip : ∀ s, ((jumpIf cc).perform s m).1 = .skip := fun s => congrArg (Outcome.branch · _) ha
    rw [hskip, hskip]
    rfl
  | callIf cc =>
    have hf : ¬cc.holds m.regs.f = true := Bool.eq_false_iff.mp ha
    rw [perform_callIf_skip hf, perform_callIf_skip hf]
    rfl
  | retIf cc =>
    have hf : ¬cc.holds m.regs.f = true := Bool.eq_false_iff.mp ha
    rw [perform_retIf_skip hf, perform_retIf_skip hf]
    rfl
  | jump | jumpPointer | call | ret | retInterrupt | restart v => cases ha
  | halt => rfl
  | _ =>
    rw [perform_next rfl, perform_next rfl]
    rfl

end Action

end Micro80
