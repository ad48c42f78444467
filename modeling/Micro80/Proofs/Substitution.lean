/-
  Micro80.Proofs.Substitution — the index register in the place of HL. The page of IX
  holds actions of the base page at the same opcodes (`base_of_dd_slot`). Where they are
  on the pair, IX is the pair (`perform_exchangedIx`); where they are on the memory
  operand, the displaced IX is its address (`perform_aimed`).

  Proved, for every state of flat memory, every opcode of the page and all operand bytes:
  - `dd_mirrors_base`: without a displacement, an instruction does what the one of the
    base page does with HL and IX exchanged. With a displacement, it does what that one
    does with HL aimed at the operand, and HL, IX and IY stay as they are. The bytes H
    and L that it loads or stores are the real ones.
-/

import Micro80.Proofs.Operands
import Micro80.Proofs.Placement
import Micro80.Proofs.Symmetry

namespace Micro80

open Bus (Flat)
open Encoding (regName)
open Operand (register indexed)

/-! ## Registers -/

namespace Registers

def exchangedIx (r : Registers) : Registers := { r.setHl r.ix with ix := r.hl }

theorem exchangedIx_exchangedIx (r : Registers) : r.exchangedIx.exchangedIx = r := by
  simp [exchangedIx, setHl, hl]

theorem setHl_setHl_hl (r : Registers) (w : Word) : (r.setHl w).setHl r.hl = r := by
  simp [setHl, hl]

theorem get_setHl {x : Reg} (h : x ≠ .h) (l : x ≠ .l) (r : Registers) (w : Word) : (r.setHl w).get x = r.get x := by
  cases x with
  | h => exact absurd rfl h
  | l => exact absurd rfl l
  | b | c | d | e | a => rfl

theorem set_setHl {x : Reg} (h : x ≠ .h) (l : x ≠ .l) (r : Registers) (w : Word) (v : Byte) :
    (r.setHl w).set x v = (r.set x v).setHl w ∧ (r.set x v).hl = r.hl := by
  cases x with
  | h => exact absurd rfl h
  | l => exact absurd rfl l
  | b | c | d | e | a => exact ⟨rfl, rfl⟩

end Registers

theorem Machine.map_exchangedIx {β : Type} (m : Machine β) : (m.map .exchangedIx).map .exchangedIx = m := by
  simp only [map, Registers.exchangedIx_exchangedIx]

theorem Pointer.becomes_exchangedIx : Becomes Registers.exchangedIx .ix .hl where
  pair r p := by
    cases p with
    | hl => exact Word.ofBytes_high_low r.ix
    | bc | de | sp | af => rfl
  setPair r p w := by
    cases p with
    | hl => rfl
    | bc | de | sp | af => rfl
  flags _ := rfl
  setFlags _ _ := rfl

/-! ## Actions -/

namespace Action

variable {s s' : Site} {m : Machine Flat}

/-- An action on the pair does with IX what it does with HL, the two being exchanged. -/
theorem perform_exchangedIx (hs : s.pointer = .ix) (hs' : s'.pointer = .hl)
    (hw : m.bus.memory.getWord s'.operands = m.bus.memory.getWord s.operands) {a : Action} (ha : a.isWide = true) :
    a.perform s m =
      ((a.perform s' (m.map .exchangedIx)).1, (a.perform s' (m.map .exchangedIx)).2.map .exchangedIx) := by
  have htracks := tracks_of_isWide (s := s) (hs ▸ Pointer.becomes_exchangedIx) ha m
  have halike : ({ s with pointer := .hl } : Site).Alike s' m.bus.memory := ⟨hs', hw⟩
  rw [perform_alike_of_isWide (m := m.map .exchangedIx) halike ha, htracks, Machine.map_exchangedIx]
  rfl

/-- Whether an action is on the memory operand, and on no half of HL. -/
def isLocal : Action → Bool
  | increment .cell | decrement .cell | loadImmediate .cell | combine _ .cell => true
  | load (.reg r) .cell | load .cell (.reg r) => r ≠ .h ∧ r ≠ .l
  | _ => false

/-- The machine with HL aimed at the memory operand. -/
def aimed (s : Site) (m : Machine Flat) : Machine Flat := m.map (·.setHl (s.cell m))

theorem cell_aimed (hs' : s'.pointer = .hl) : s'.cell (aimed s m) = s.cell m := by
  rw [Site.cell, hs']
  exact m.regs.hl_setHl _

/-- HL may be aimed elsewhere and put back behind what does not look at it. -/
theorem restored (o : Outcome) (r : Registers) (w : Word) (b : Flat) :
    (o, (⟨r, b⟩ : Machine Flat)) = (o, (⟨r.setHl w, b⟩ : Machine Flat).map (·.setHl r.hl)) := by
  rw [Machine.map, Registers.setHl_setHl_hl]

theorem restored_set {x : Reg} (h : x ≠ .h) (l : x ≠ .l) (o : Outcome) (r : Registers) (w : Word) (v : Byte)
    (b : Flat) :
    (o, (⟨r.set x v, b⟩ : Machine Flat)) = (o, (⟨(r.setHl w).set x v, b⟩ : Machine Flat).map (·.setHl r.hl)) := by
  obtain ⟨hset, hhl⟩ := Registers.set_setHl h l r w v
  rw [hset, ← hhl]
  exact restored o _ w b

/-- An action on the memory operand does what it does through HL, with HL aimed at the operand. -/
theorem perform_aimed (hs : s.pointer ≠ .hl) (hs' : s'.pointer = .hl)
    (hv : m.bus.memory.get s'.operands = m.bus.memory.get (s.operands + 1)) {a : Action} (ha : a.isLocal = true) :
    a.perform s m = ((a.perform s' (aimed s m)).1, (a.perform s' (aimed s m)).2.map (·.setHl m.regs.hl)) := by
  have hcell := cell_aimed (s := s) (m := m) hs'
  cases a with
  | increment dst | decrement dst =>
    cases dst with
    | reg r => cases ha
    | cell =>
      simp only [perform, Effect.bind_apply, Effect.update_apply, Effect.pure_apply, Machine.byte, Machine.setByte,
        Site.cell_flags, hcell]
      exact restored _ { m.regs with f := _ } _ _
  | loadImmediate dst =>
    cases dst with
    | reg r => cases ha
    | cell =>
      simp only [perform, Effect.bind_apply, Effect.immediate_apply_hl _ hs', Effect.immediate_apply, if_neg hs,
        Effect.set_apply, Effect.pure_apply, Machine.setByte, hcell]
      rw [← hv]
      exact restored _ m.regs _ _
  | combine op src =>
    cases src with
    | reg r => cases ha
    | cell =>
      simp only [perform, Effect.bind_apply, Effect.get_apply, Effect.accumulate_apply, Effect.pure_apply, Machine.byte,
        hcell]
      exact restored _ { m.regs with a := _, f := _ } _ _
  | load dst src =>
    cases dst with
    | reg r =>
      cases src with
      | reg q => cases ha
      | cell =>
        obtain ⟨h, l⟩ := of_decide_eq_true ha
        simp only [perform, Effect.bind_apply, Effect.get_apply, Effect.set_apply, Effect.pure_apply, Machine.byte,
          Machine.setByte, hcell]
        exact restored_set h l _ m.regs _ _ _
    | cell =>
      cases src with
      | reg q =>
        obtain ⟨h, l⟩ := of_decide_eq_true ha
        have hget : (aimed s m).regs.get q = m.regs.get q := Registers.get_setHl h l m.regs _
        simp only [perform, Effect.bind_apply, Effect.get_apply, Effect.set_apply, Effect.pure_apply, Machine.byte,
          Machine.setByte, hcell, hget]
        exact restored _ m.regs _ _
      | cell => cases ha
  | _ => cases ha

end Action

/-! ## The page of IX -/

/-- The opcodes of the page that have no displacement. -/
def pairOpcodes : List Byte :=
  [0x09, 0x19, 0x29, 0x39, 0x21, 0x22, 0x23, 0x2A, 0x2B, 0xE1, 0xE3, 0xE5, 0xE9, 0xF9]

def cellOpcodes : List Byte :=
  [0x34, 0x35, 0x36, 0x46, 0x4E, 0x56, 0x5E, 0x7E, 0x70, 0x71, 0x72, 0x73, 0x77,
    0x86, 0x8E, 0x96, 0x9E, 0xA6, 0xAE, 0xB6, 0xBE]

def Form.namesHalf (f : Form) : Bool :=
  [Reg.h, .l].any fun r => f.dst = register (regName r) ∨ f.src = register (regName r)

theorem base_of_dd_slot {o : Byte} {d : Descriptor} (h : Page.dd.slot o = .instruction d) :
    ∃ e, Page.base.slot o = .instruction e ∧ e.action = d.action := by
  have checked : ∀ o, (Page.dd.slot o).all (fun d => (Page.base.slot o).any fun e => e.action = d.action) = true := by
    decide +kernel
  obtain ⟨e, he, ha⟩ := Slot.of_any (Slot.of_all (checked o) h)
  exact ⟨e, he, of_decide_eq_true ha⟩

theorem isDisplaced_of_dd_slot {o : Byte} {d : Descriptor} (h : Page.dd.slot o = .instruction d) :
    (d.form.isDisplaced = false ↔ o ∈ pairOpcodes) ∧
      (d.form.isDisplaced = true ∧ d.form.namesHalf = false ↔ o ∈ cellOpcodes) := by
  have checked : ∀ o, (Page.dd.slot o).all (fun d => (d.form.isDisplaced = false ↔ o ∈ pairOpcodes) ∧
      (d.form.isDisplaced = true ∧ d.form.namesHalf = false ↔ o ∈ cellOpcodes)) = true := by
    decide +kernel
  exact of_decide_eq_true (Slot.of_all (checked o) h)

/-- The text tells which actions are on the pair, and which on the memory operand. -/
theorem action_of_dd_slot {o : Byte} {d : Descriptor} (h : Page.dd.slot o = .instruction d) :
    (d.form.isDisplaced = false → d.action.isWide = true) ∧
      (d.form.isDisplaced = true → d.form.namesHalf = false → d.action.isLocal = true) ∧
      ∀ r ∈ [Reg.h, .l],
        (d.form = ⟨"ld", register (regName r), indexed "ix"⟩ → d.action = .load (.reg r) .cell) ∧
        (d.form = ⟨"ld", indexed "ix", register (regName r)⟩ → d.action = .load .cell (.reg r)) := by
  have checked : ∀ o, (Page.dd.slot o).all (fun d =>
      (d.form.isDisplaced = false → d.action.isWide = true) ∧
        (d.form.isDisplaced = true → d.form.namesHalf = false → d.action.isLocal = true) ∧
        ∀ r ∈ [Reg.h, .l],
          (d.form = ⟨"ld", register (regName r), indexed "ix"⟩ → d.action = .load (.reg r) .cell) ∧
          (d.form = ⟨"ld", indexed "ix", register (regName r)⟩ → d.action = .load .cell (.reg r))) = true := by
    decide +kernel
  exact of_decide_eq_true (Slot.of_all (checked o) h)

/-- What an instruction of the page of IX does, by what the one of the base page does at its opcode. -/
theorem dd_mirrors_base {o : Byte} {d : Descriptor} (h : Page.dd.slot o = .instruction d) {s s' : Site}
    (hs : s.pointer = .ix) (hs' : s'.pointer = .hl) (m : Machine Flat) :
    let dd := d.action.perform s m
    let target := m.regs.ix.displace (m.bus.memory.get s.operands)
    ∃ e, Page.base.slot o = .instruction e ∧
      (d.form.isDisplaced = false ↔ o ∈ pairOpcodes) ∧
      (d.form.isDisplaced = true ∧ d.form.namesHalf = false ↔ o ∈ cellOpcodes) ∧
      (o ∈ pairOpcodes → m.bus.memory.getWord s'.operands = m.bus.memory.getWord s.operands →
        let hl := e.action.perform s' (m.map .exchangedIx)
        dd = (hl.1, hl.2.map .exchangedIx)) ∧
      (o ∈ cellOpcodes → m.bus.memory.get s'.operands = m.bus.memory.get (s.operands + 1) →
        let hl := e.action.perform s' (m.map (·.setHl target))
        dd = (hl.1, hl.2.map (·.setHl m.regs.hl)) ∧
          dd.2.regs.hl = m.regs.hl ∧ dd.2.regs.ix = m.regs.ix ∧ dd.2.regs.iy = m.regs.iy) ∧
      ∀ r ∈ [Reg.h, .l],
        (d.form = ⟨"ld", register (regName r), indexed "ix"⟩ →
          dd = (.next, ⟨m.regs.set r (m.bus.memory.get target), m.bus⟩)) ∧
        (d.form = ⟨"ld", indexed "ix", register (regName r)⟩ →
          dd = (.next, ⟨m.regs, m.bus.withMemory (m.bus.memory.set target (m.regs.get r))⟩)) := by
  intro dd target
  obtain ⟨e, he, ha⟩ := base_of_dd_slot h
  obtain ⟨hpair, hcell⟩ := isDisplaced_of_dd_slot h
  obtain ⟨hwide, hlocal, hhalf⟩ := action_of_dd_slot h
  have htarget : s.cell m = target := by
    rw [Site.cell, hs]
    rfl
  refine ⟨e, he, hpair, hcell, ?_, ?_, ?_⟩
  · intro ho hw
    rw [ha]
    exact Action.perform_exchangedIx hs hs' hw (hwide (hpair.mpr ho))
  · intro ho hv hl
    obtain ⟨hd, hn⟩ := hcell.mpr ho
    have haimed := Action.perform_aimed (m := m) (hs ▸ nofun) hs' hv (hlocal hd hn)
    rw [Action.aimed, htarget] at haimed
    have hdd : dd = (hl.1, hl.2.map (·.setHl m.regs.hl)) := by
      simp only [hl, ha]
      exact haimed
    refine ⟨hdd, ?_, ?_, ?_⟩
    · rw [hdd]
      exact Registers.hl_setHl _ _
    · rw [hdd]
      exact e.action.ix_perform (s := s') _ (hs' ▸ nofun)
    · exact d.action.iy_perform (s := s) m (hs ▸ nofun)
  · intro r hr
    obtain ⟨hload, hstore⟩ := hhalf r hr
    constructor
    · intro hf
      simp only [dd, hload hf, Action.perform, Effect.bind_apply, Effect.get_apply, Effect.set_apply, Effect.pure_apply,
        Machine.byte, Machine.setByte, htarget]
    · intro hf
      simp only [dd, hstore hf, Action.perform, Effect.bind_apply, Effect.get_apply, Effect.set_apply,
        Effect.pure_apply, Machine.byte, Machine.setByte, htarget]

/-- With 3 in IX, `ld (ix-1),2ah` writes over its own displacement, and so does `ld (hl),2ah` with 2 in HL. -/
theorem dd_mirrors_base_overwritten :
    let m : Machine Flat := ⟨{ h := 0x12, ix := 3 }, { memory := Memory.zero.load 0 [0xDD, 0x36, 0xFF, 0x2A] }⟩
    ∃ e, Page.base.slot 0x36 = .instruction e ∧
      let dd := (Action.loadImmediate .cell).perform ⟨0, 2, 4, .ix⟩ m
      let hl := e.action.perform ⟨0, 3, 4, .hl⟩ (m.map (·.setHl 2))
      dd = (hl.1, hl.2.map (·.setHl 0x1200)) ∧ dd.2.regs.hl = 0x1200 := by
  intro m
  have h₂ : m.bus.memory.get 2 = 0xFF := by simp [m, Memory.load, Memory.get_set]
  have hd : Page.dd.slot 0x36 =
      .instruction (.zilogOnly "ld" (.indexed "ix") .immediate 4 19 (.loadImmediate .cell)) := by decide +kernel
  have hs : (⟨0, 2, 4, .ix⟩ : Site).pointer = .ix := rfl
  have hs' : (⟨0, 3, 4, .hl⟩ : Site).pointer = .hl := rfl
  obtain ⟨e, he, -, -, -, hcell, -⟩ := dd_mirrors_base hd hs hs' m
  have ht : m.regs.ix.displace (m.bus.memory.get 2) = 2 := by
    rw [h₂]
    decide
  have hhl : m.regs.hl = 0x1200 := by decide
  obtain ⟨hdd, hl, -, -⟩ := hcell (by decide) rfl
  simp only [ht, hhl] at hdd
  exact ⟨e, he, hdd, hl.trans hhl⟩

end Micro80
