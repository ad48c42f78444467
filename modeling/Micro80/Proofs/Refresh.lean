/-
  Micro80.Proofs.Refresh — the refresh counter. A step counts the opcode bytes of the
  instruction that it performs, before this is performed (`fetches`), and one instruction
  alone sets the counter, `ld r,a` (`LoadsRefresh`). So the counter is that of the start
  with all fetches since (`r_through`).

  Proved, for every bus, either dialect and every state:
  - `refresh_counts`: a session without a reset and without `ld r,a` leaves bit 7 alone
    and adds its fetches to the others; `ld a,r` sees its own two.
-/

import Mathlib.Algebra.GroupWithZero.Nat
import Micro80.Proofs.Dedicated
import Micro80.Proofs.Dialects
import Micro80.Proofs.Unambiguous

namespace Micro80

open Bus (Flat)

/-! ## The instructions that name the counter -/

/-- `ld r,a` has one place, behind 0xED. -/
theorem storeRefresh_of_slot {p : Page} {opcode : Byte} {d : Descriptor} (h : p.slot opcode = .instruction d)
    (ha : d.action = .storeRefresh) : p = .ed ∧ opcode = 0x4F := by
  have checked : ∀ o, (p.slot o).all (fun d => d.action = .storeRefresh → p = .ed ∧ o = 0x4F) = true := by
    cases p <;> decide +kernel
  exact of_decide_eq_true (Slot.of_all (checked opcode) h) ha

/-- No other action sets it. -/
theorem Action.r_dedicated {a : Action} (h : a ≠ .storeRefresh) (r : Registers) : (a.dedicated r).r = r.r := by
  cases a with
  | storeRefresh => exact absurd rfl h
  | _ => rfl

namespace Registers

/-- What the counter is after some fetches depends on the counter alone. -/
theorem r_refresh_congr {r s : Registers} (h : r.r = s.r) (n : Nat) : (r.refresh n).r = (s.refresh n).r := by
  unfold refresh
  rw [h]

/-- Bit 7 is the upper half. -/
theorem bit_eq_upper : ∀ v : Byte, v.getLsbD 7 = decide (128 ≤ v.toNat) := by decide +kernel

/-- The low seven bits count and carry nothing into bit 7. -/
theorem bits_refresh (r : Registers) (n : Nat) :
    (r.refresh n).r.getLsbD 7 = r.r.getLsbD 7 ∧
      (r.refresh n).r.toNat % 128 = (r.r.toNat % 128 + n) % 128 := by
  have hr := r.r.isLt
  rw [bit_eq_upper, bit_eq_upper, toNat_refresh]
  exact ⟨decide_eq_decide.mpr (by omega), by omega⟩

end Registers

def Stop.isInvalid : Stop → Bool
  | halt => false
  | invalid .. => true

namespace Cpu

variable {β : Type} [PortBus β]

/-- The opcode bytes that a step counts. -/
def fetches (c : Cpu β) : Nat :=
  if c.step.1.any Stop.isInvalid then 0
  else if leadBytes.contains (firstByte c.regs.pc c.bus) then 2
  else 1

def LoadsRefresh (c : Cpu β) : Prop :=
  c.dialect = .z80 ∧ firstByte c.regs.pc c.bus = 0xED ∧ secondByte c.regs.pc c.bus = 0x4F

def FetchesRefresh (c : Cpu β) : Prop :=
  c.dialect = .z80 ∧ firstByte c.regs.pc c.bus = 0xED ∧ secondByte c.regs.pc c.bus = 0x5F

instance (c : Cpu β) : Decidable c.LoadsRefresh := inferInstanceAs (Decidable (_ ∧ _ ∧ _))

instance (c : Cpu β) : Decidable c.FetchesRefresh := inferInstanceAs (Decidable (_ ∧ _ ∧ _))

variable {c : Cpu β}

theorem loadsRefresh_of_action {i : Instruction} (hd : (decode c.dialect c.regs.pc c.bus).1 = .ok i)
    (ha : i.descriptor.action = .storeRefresh) : c.LoadsRefresh := by
  rcases (decode_cases hd).2 with ⟨-, hs⟩ | ⟨hz, hl, hs⟩
  · cases (storeRefresh_of_slot hs ha).1
  · obtain ⟨hp, ho⟩ := storeRefresh_of_slot hs ha
    rw [hp] at hl
    exact ⟨hz, (Option.some.inj (Page.leadByte?_of_slot hl)).symm, ho⟩

/-! ## Steps -/

theorem fetches_of_decode {i : Instruction} (hd : (decode c.dialect c.regs.pc c.bus).1 = .ok i)
    (hs : c.step = execute i { c with bus := (decode c.dialect c.regs.pc c.bus).2 }) : c.fetches = i.page.width := by
  have hn : ¬c.step.1.any Stop.isInvalid = true := by
    rw [hs, Option.any_eq_true]
    rintro ⟨stop, h, hi⟩
    cases stop with
    | halt => cases hi
    | invalid opcode address => exact execute_ne_invalid i _ opcode address h
  rw [width_of_decode hd, fetches, if_neg hn]
  simp only [List.contains_iff_mem]

/-- A step counts, unless it loads the counter. -/
theorem r_step (h : ¬c.LoadsRefresh) : c.step.2.regs.r = (c.regs.refresh c.fetches).r := by
  rcases c.invalid_or_execute with ⟨opcode, -, hs⟩ | ⟨i, hd, hs⟩
  · have hf : c.fetches = 0 := by
      rw [fetches, hs]
      exact if_pos rfl
    rw [hf, Registers.refresh_zero, hs]
  · rw [fetches_of_decode hd hs, hs]
    have hr := congrArg Dedicated.r (dedicated_execute i { c with bus := (decode c.dialect c.regs.pc c.bus).2 })
    rw [Action.r_dedicated fun ha => h (loadsRefresh_of_action hd ha)] at hr
    exact hr

theorem step_fetchRefresh (h : c.FetchesRefresh) :
    c.step.1 = none ∧ c.step.2.regs.a = (c.regs.refresh 2).r ∧ c.step.2.regs.r = (c.regs.refresh 2).r := by
  obtain ⟨hz, hfirst, hsecond⟩ := h
  obtain ⟨d, hd, ha⟩ : ∃ d, Page.ed.slot 0x5F = .instruction d ∧ d.action = .fetchRefresh := ⟨_, rfl, rfl⟩
  have hdecode : (decode c.dialect c.regs.pc c.bus).1 = .ok ⟨d, .ed⟩ := by
    rw [hz]
    exact decode_of_second (p := .ed) (by rw [hfirst]; rfl) (by rw [hsecond]; exact hd)
  rcases c.invalid_or_execute with ⟨opcode, he, -⟩ | ⟨i, hi, hs⟩
  · rw [hdecode] at he
    cases he
  · cases hdecode.symm.trans hi
    rw [hs]
    unfold execute
    simp only [ha]
    exact ⟨rfl, rfl, rfl⟩

/-! ## Sessions -/

/-- After a session the counter has all its fetches. -/
theorem r_through {events : List (Event β)} (hr : ∀ cold, .reset cold ∉ events)
    (hl : ∀ k ∈ c.stepped events, ¬k.LoadsRefresh) :
    (c.through events).regs.r = (c.regs.refresh ((c.stepped events).map fetches).sum).r := by
  induction events generalizing c with
  | nil => exact congrArg Registers.r c.regs.refresh_zero.symm
  | cons e events ih =>
    have hrest : ∀ cold, .reset cold ∉ events := fun cold h => hr cold (.tail _ h)
    cases e with
    | step =>
      have hstep : c.step.2.regs.r = (c.regs.refresh c.fetches).r := r_step (hl c (.head _))
      calc (c.step.2.through events).regs.r
          = (c.step.2.regs.refresh ((c.step.2.stepped events).map fetches).sum).r :=
            ih hrest fun k hk => hl k (.tail _ hk)
        _ = ((c.regs.refresh c.fetches).refresh ((c.step.2.stepped events).map fetches).sum).r :=
            Registers.r_refresh_congr hstep _
        _ = (c.regs.refresh (c.fetches + ((c.step.2.stepped events).map fetches).sum)).r := by
            rw [Registers.refresh_refresh]
    | reset cold => exact absurd (.head _) (hr cold)
    | setPc a => exact ih hrest hl
    | change g => exact ih hrest hl

/-- Without a reset and without `ld r,a`, bit 7 of the counter stays and the other bits count
    the opcode bytes performed, modulo 128; `ld a,r` loads what counts its own two. -/
theorem refresh_counts (c : Cpu β) :
    (∀ events : List (Event β), (∀ cold, .reset cold ∉ events) →
      (∀ k ∈ c.stepped events, ¬k.LoadsRefresh) →
        (c.through events).regs.r.getLsbD 7 = c.regs.r.getLsbD 7 ∧
          (c.through events).regs.r.toNat % 128 =
            (c.regs.r.toNat % 128 + ((c.stepped events).map fetches).sum) % 128) ∧
      (c.FetchesRefresh →
        c.step.1 = none ∧ c.step.2.regs.a = c.step.2.regs.r ∧
          c.step.2.regs.a.getLsbD 7 = c.regs.r.getLsbD 7 ∧
          c.step.2.regs.a.toNat % 128 = (c.regs.r.toNat % 128 + 2) % 128) := by
  refine ⟨fun events hr hl => ?_, fun h => ?_⟩
  · rw [r_through hr hl]
    exact c.regs.bits_refresh _
  · obtain ⟨hnone, ha, hr⟩ := step_fetchRefresh h
    rw [hr, ha]
    exact ⟨hnone, rfl, c.regs.bits_refresh 2⟩

/-- From 0xFF on: `nop`, a byte pair that is no instruction, and `inc ix` add three; then
    `ld a,r` loads 0x84. -/
theorem refresh_counts_wrap :
    let c : Cpu Flat := ⟨{ r := 0xFF }, 0, .z80,
      { memory := Memory.zero.load 0 [0x00, 0xED, 0xFF, 0xDD, 0x23, 0xED, 0x5F] }⟩
    let events : List (Event Flat) := [.step, .step, .setPc 3, .step]
    (∀ cold, .reset cold ∉ events) ∧ (∀ k ∈ c.stepped events, ¬k.LoadsRefresh) ∧
      (c.through events).FetchesRefresh ∧
      (c.through events).regs.r.getLsbD 7 = true ∧ (c.through events).regs.r.toNat % 128 = 2 ∧
      (c.through events).step.2.regs.a.getLsbD 7 = true ∧ (c.through events).step.2.regs.a.toNat % 128 = 4 := by
  intro c events
  have hr : ∀ cold, .reset cold ∉ events := by
    intro cold h
    simp [events] at h
  have hl : ∀ k ∈ c.stepped events, ¬k.LoadsRefresh := by decide +kernel
  have hf : (c.through events).FetchesRefresh := by decide +kernel
  have hsum : ((c.stepped events).map fetches).sum = 3 := by decide +kernel
  obtain ⟨hbit, hlow⟩ := (refresh_counts c).1 events hr hl
  obtain ⟨-, -, habit, halow⟩ := (refresh_counts (c.through events)).2 hf
  have hstart : c.regs.r.getLsbD 7 = true ∧ c.regs.r.toNat % 128 = 127 := by decide
  rw [hstart.1] at hbit
  rw [hstart.2, hsum] at hlow
  rw [hbit] at habit
  rw [hlow] at halow
  exact ⟨hr, hl, hf, hbit, hlow, habit, halow⟩

end Cpu

end Micro80
