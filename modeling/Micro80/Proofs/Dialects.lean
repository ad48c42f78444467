/-
  Micro80.Proofs.Dialects — the smaller dialect inside the larger. What decodes in the
  smaller one decodes to the same instruction in the larger, from the same bytes
  (`decode_z80`), and performing an instruction does not look at the dialect; so a step
  of the one is a step of the other (`step_z80`), on any bus and with every access the
  same. The larger dialect fills the twelve bytes that the smaller leaves free
  (`unassigned`).

  Proved, for every state on an observed bus:
  - `steps_z80`: a run in the smaller dialect that meets none of those bytes is a run in
    the larger, step by step, and a step that meets one says so.
-/

import Micro80.Host.Recorded
import Micro80.Proofs.Flat

namespace Micro80

open Bus (Flat Recorded)

/-! ## Decoding -/

def unassigned : List Byte := [0x08, 0x10, 0x18, 0x20, 0x28, 0x30, 0x38, 0xCB, 0xD9, 0xDD, 0xED, 0xFD]

def Slot.isSpelled (slot : Slot) (d : Dialect) : Bool :=
  match slot with
  | instruction e => (e.spelling? d).isSome
  | _ => false

theorem isSpelled_iff (opcode : Byte) : (Page.base.slot opcode).isSpelled .i8080 = true ↔ opcode ∉ unassigned := by
  revert opcode
  decide +kernel

theorem Slot.decode_of_isSpelled {slot : Slot} {d : Dialect} (p : Page) (opcode : Byte) (h : slot.isSpelled d = true) :
    ∃ e, slot = .instruction e ∧ slot.decode p d opcode = .ok ⟨e, p⟩ := by
  cases slot with
  | vacant => cases h
  | lead q => cases h
  | instruction e => exact ⟨e, rfl, if_pos h⟩

theorem Slot.decode_of_not_isSpelled {slot : Slot} {d : Dialect} (p : Page) (opcode : Byte)
    (h : slot.isSpelled d = false) : slot.decode p d opcode = .error opcode := by
  cases slot with
  | vacant => rfl
  | lead q => rfl
  | instruction e => exact if_neg (Bool.eq_false_iff.mp h)

section
variable {β : Type} [Bus β]

/-- The smaller dialect reads one byte. -/
theorem decode_i8080 (a : Word) (b : β) :
    decode .i8080 a b =
      ((Page.base.slot (Bus.read b a).1).decode .base .i8080 (Bus.read b a).1, (Bus.read b a).2) := rfl

/-- An instruction of the smaller dialect is one of the larger, and it takes no more to find it. -/
theorem decode_z80 {a : Word} {b b' : β} {i : Instruction} (h : decode .i8080 a b = (.ok i, b')) :
    decode .z80 a b = (.ok i, b') := by
  rw [decode_i8080] at h
  obtain ⟨hi, rfl⟩ := Prod.mk.inj h
  by_cases hs : (Page.base.slot (Bus.read b a).1).isSpelled .i8080 = true
  · obtain ⟨e, he, hd⟩ := Slot.decode_of_isSpelled .base (Bus.read b a).1 hs
    rw [hd] at hi
    cases hi
    unfold decode
    simp only [he]
    rfl
  · rw [Slot.decode_of_not_isSpelled _ _ (Bool.eq_false_iff.mpr hs)] at hi
    cases hi

end

/-! ## Steps -/

namespace Cpu

section
variable {β : Type}

def inDialect (c : Cpu β) (d : Dialect) : Cpu β := { c with dialect := d }

variable [PortBus β]

theorem execute_inDialect (i : Instruction) (c : Cpu β) (d : Dialect) :
    execute i (c.inDialect d) = ((execute i c).1, (execute i c).2.inDialect d) := rfl

theorem execute_dialect (i : Instruction) (c : Cpu β) : (execute i c).2.dialect = c.dialect := rfl

/-- A step in the smaller dialect performs what the base page holds at the byte that it reads. -/
theorem step_of_base {c : Cpu β} {i : Instruction} (h : c.dialect = .i8080)
    (hi : (Page.base.slot (Bus.read c.bus c.regs.pc).1).decode .base .i8080 (Bus.read c.bus c.regs.pc).1 = .ok i) :
    c.step = execute i { c with bus := (Bus.read c.bus c.regs.pc).2 } := by
  obtain ⟨regs, cycles, dialect, bus⟩ := c
  simp only at h
  subst h
  have hd : decode .i8080 regs.pc bus = (.ok i, (Bus.read bus regs.pc).2) := by
    rw [decode_i8080, hi]
  simp only [step, hd]

/-- A step in the smaller dialect finds a byte that is free, or an instruction. -/
theorem step_i8080_cases {c : Cpu β} (h : c.dialect = .i8080) :
    ((Bus.read c.bus c.regs.pc).1 ∈ unassigned ∧
      c.step = (some (.invalid (Bus.read c.bus c.regs.pc).1 c.regs.pc),
        { c with bus := (Bus.read c.bus c.regs.pc).2 })) ∨
    ((Bus.read c.bus c.regs.pc).1 ∉ unassigned ∧
      ∃ i, decode .i8080 c.regs.pc c.bus = (.ok i, (Bus.read c.bus c.regs.pc).2) ∧
        c.step = execute i { c with bus := (Bus.read c.bus c.regs.pc).2 }) := by
  by_cases hs : (Page.base.slot (Bus.read c.bus c.regs.pc).1).isSpelled .i8080 = true
  · obtain ⟨e, -, he⟩ := Slot.decode_of_isSpelled .base (Bus.read c.bus c.regs.pc).1 hs
    refine .inr ⟨(isSpelled_iff _).mp hs, ⟨e, .base⟩, ?_, step_of_base h he⟩
    rw [decode_i8080, he]
  · obtain ⟨regs, cycles, dialect, bus⟩ := c
    simp only at h
    subst h
    have hn : ¬(Bus.read bus regs.pc).1 ∉ unassigned := fun hn => hs ((isSpelled_iff _).mpr hn)
    have hd : decode .i8080 regs.pc bus = (.error (Bus.read bus regs.pc).1, (Bus.read bus regs.pc).2) := by
      rw [decode_i8080, Slot.decode_of_not_isSpelled _ _ (Bool.eq_false_iff.mpr hs)]
    refine .inl ⟨Decidable.not_not.mp hn, ?_⟩
    simp only [step, hd]

/-- Performing an instruction is never to find none. -/
theorem execute_ne_invalid (i : Instruction) (c : Cpu β) (opcode : Byte) (address : Word) :
    (execute i c).1 ≠ some (.invalid opcode address) :=
  fun h => nomatch (Outcome.stop_eq_some h).2

theorem step_z80 {c : Cpu β} (hd : c.dialect = .i8080) (h : ∀ opcode address, c.step.1 ≠ some (.invalid opcode address)) :
    (c.inDialect .z80).step = (c.step.1, c.step.2.inDialect .z80) ∧ c.step.2.dialect = .i8080 := by
  rcases step_i8080_cases hd with ⟨-, hs⟩ | ⟨-, i, hi, hs⟩
  · rw [hs] at h
    exact absurd rfl (h _ _)
  · have hz : decode .z80 c.regs.pc c.bus = (.ok i, (Bus.read c.bus c.regs.pc).2) := decode_z80 hi
    refine ⟨?_, ?_⟩
    · rw [hs, ← execute_inDialect]
      unfold step inDialect
      simp only [hz]
    · rw [hs, execute_dialect, hd]

/-- A step in the smaller dialect finds no instruction just where a byte is free. -/
theorem step_invalid_iff {c : Cpu β} (hd : c.dialect = .i8080) (opcode : Byte) (address : Word) :
    c.step.1 = some (.invalid opcode address) ↔
      opcode = (Bus.read c.bus c.regs.pc).1 ∧ address = c.regs.pc ∧ opcode ∈ unassigned := by
  rcases step_i8080_cases hd with ⟨hm, hs⟩ | ⟨hm, i, -, hs⟩
  · rw [hs]
    constructor
    · intro h
      cases h
      exact ⟨rfl, rfl, hm⟩
    · rintro ⟨rfl, rfl, -⟩
      rfl
  · rw [hs]
    constructor
    · intro h
      exact absurd h (execute_ne_invalid i _ opcode address)
    · rintro ⟨rfl, -, hu⟩
      exact absurd hu hm

/-! ## Runs -/

/-- Up to `n` steps, each with what it gave and the processor after it; a stop is the last. -/
def steps : Nat → Cpu β → List (Option Stop × Cpu β)
  | 0, _ => []
  | n + 1, c => c.step :: if c.step.1 = none then steps n c.step.2 else []

theorem steps_z80_run (n : Nat) : ∀ {c : Cpu β}, c.dialect = .i8080 →
    (∀ s ∈ c.steps n, ∀ opcode address, s.1 ≠ some (.invalid opcode address)) →
    (c.inDialect .z80).steps n = (c.steps n).map fun s => (s.1, s.2.inDialect .z80) := by
  induction n with
  | zero =>
    intro c hd h
    rfl
  | succ n ih =>
    intro c hd h
    obtain ⟨hs, hd'⟩ := step_z80 hd (h c.step (List.mem_cons_self ..))
    rw [steps, steps, hs, List.map_cons]
    by_cases hn : c.step.1 = none
    · rw [if_pos hn, if_pos hn]
      have hrest : ∀ s ∈ c.step.2.steps n, ∀ opcode address, s.1 ≠ some (.invalid opcode address) := by
        intro s hm
        apply h s
        rw [steps, if_pos hn]
        exact List.mem_cons_of_mem _ hm
      rw [ih hd' hrest]
    · rw [if_neg hn, if_neg hn]
      rfl

end

/-- The smaller dialect is a part of the larger: a run that finds an instruction at every step
    is the same run in either, to the last access. -/
theorem steps_z80 {c : Cpu (Recorded Flat)} (hd : c.dialect = .i8080) :
    (∀ n, (∀ s ∈ c.steps n, ∀ opcode address, s.1 ≠ some (.invalid opcode address)) →
      (c.inDialect .z80).steps n = (c.steps n).map fun s => (s.1, s.2.inDialect .z80)) ∧
    ∀ opcode address, c.step.1 = some (.invalid opcode address) ↔
      opcode = c.bus.bus.memory.get c.regs.pc ∧ address = c.regs.pc ∧
        opcode ∈ ([0x08, 0x10, 0x18, 0x20, 0x28, 0x30, 0x38, 0xCB, 0xD9, 0xDD, 0xED, 0xFD] : List Byte) :=
  ⟨fun n h => steps_z80_run n hd h, step_invalid_iff hd⟩

/-- `mvi a,7` and `hlt` are the same two steps in either dialect. -/
theorem steps_z80_moveHalt :
    let c : Cpu (Recorded Flat) := ⟨{}, 0, .i8080, { bus := { memory := Memory.zero.load 0 [0x3E, 0x07, 0x76] } }⟩
    c.dialect = .i8080 ∧ (c.steps 3).map Prod.fst = [none, some .halt] ∧
      (c.inDialect .z80).steps 3 = (c.steps 3).map fun s => (s.1, s.2.inDialect .z80) := by
  intro c
  have h₀ : c.bus.bus.memory.get 0 = 0x3E := by simp [c, Memory.load, Memory.get_set]
  have h₂ : c.bus.bus.memory.get 2 = 0x76 := by simp [c, Memory.load]
  let move := (Descriptor.zilogOnly "ld" (.register "a") .immediate 2 7 (.loadImmediate (.reg .a))).orIntel "mvi" "a" ""
  let halt := (Descriptor.zilogOnly "halt" .none .none 1 4 .halt).orIntel "hlt" "" ""
  have hmove : (Page.base.slot (c.bus.bus.memory.get 0)).decode .base .i8080 (c.bus.bus.memory.get 0) =
      .ok ⟨move, .base⟩ := by
    rw [h₀]
    rfl
  have hhalt : (Page.base.slot (c.bus.bus.memory.get 2)).decode .base .i8080 (c.bus.bus.memory.get 2) =
      .ok ⟨halt, .base⟩ := by
    rw [h₂]
    rfl
  let c' : Cpu (Recorded Flat) := (execute ⟨move, .base⟩ { c with bus := (Bus.read c.bus c.regs.pc).2 }).2
  have hs : c.step = (none, c') := step_of_base (c := c) rfl hmove
  have hs' : c'.step = (some .halt, _) := step_of_base (c := c') rfl hhalt
  have hrun : c.steps 3 = [(none, c'), (some .halt, c'.step.2)] := by
    rw [steps, hs, if_pos rfl, steps, hs', if_neg (Option.some_ne_none _)]
  refine ⟨rfl, ?_, (steps_z80 (c := c) rfl).1 3 ?_⟩
  · rw [hrun]
    rfl
  · rw [hrun]
    intro s hm opcode address hi
    rcases List.mem_cons.mp hm with rfl | hm
    · cases hi
    · cases List.mem_singleton.mp hm
      cases hi

end Cpu

end Micro80
