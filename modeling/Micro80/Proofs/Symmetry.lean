/-
  Micro80.Proofs.Symmetry — the two index registers are alike. What an action does with
  one of them it does with the other, the registers themselves being exchanged
  (`perform_swapped`); and the one that it does not point to makes no difference to it
  (`perform_setIx`, `perform_setIy`). The two pages hold the same actions
  (`slots_of_index_pages`).

  Proved, for every second byte, every bus, every state and every operand address:
  - `index_pages_symmetric`: both pages have an instruction or neither has, of the same
    length and costs; what the one does with IX the other does with IY. Neither reads or
    writes the other's register. On an observed bus the accesses are the same, in order.
-/

import Micro80.Proofs.Form
import Micro80.Proofs.Tracking

namespace Micro80

/-! ## Index registers -/

namespace Registers

def swapped (r : Registers) : Registers := { r with ix := r.iy, iy := r.ix }

def setIx (r : Registers) (w : Word) : Registers := { r with ix := w }

def setIy (r : Registers) (w : Word) : Registers := { r with iy := w }

end Registers

namespace Pointer

def swapped : Pointer → Pointer
  | .hl => .hl | .ix => .iy | .iy => .ix

/-- Behind the exchange the pointer is the other one. -/
theorem recast_swapped (x : Pointer) : Recast (fun u => ⟨u.iy, u.ix, u.pc⟩) x x.swapped where
  hl_iff := by cases x <;> decide
  get r := by cases x <;> rfl
  set r w := by cases x <;> rfl

theorem recast_setIx {x : Pointer} (h : x ≠ .ix) (w : Word) : Recast (fun u => { u with ix := w }) x x where
  hl_iff := .rfl
  get r := by
    cases x with
    | ix => exact absurd rfl h
    | hl | iy => rfl
  set r v := by
    cases x with
    | ix => exact absurd rfl h
    | hl | iy => rfl

theorem recast_setIy {x : Pointer} (h : x ≠ .iy) (w : Word) : Recast (fun u => { u with iy := w }) x x where
  hl_iff := .rfl
  get r := by
    cases x with
    | iy => exact absurd rfl h
    | hl | ix => rfl
  set r v := by
    cases x with
    | iy => exact absurd rfl h
    | hl | ix => rfl

end Pointer

/-! ## Actions -/

namespace Action

variable {β : Type} [PortBus β] {s : Site} (a : Action) (m : Machine β)

theorem perform_swapped (s : Site) :
    a.perform { s with pointer := s.pointer.swapped } (m.map .swapped) =
      ((a.perform s m).1, (a.perform s m).2.map .swapped) :=
  a.tracks_recast s.pointer.recast_swapped m

theorem perform_setIx (h : s.pointer ≠ .ix) (w : Word) :
    a.perform s (m.map (·.setIx w)) = ((a.perform s m).1, (a.perform s m).2.map (·.setIx w)) :=
  a.tracks_recast (Pointer.recast_setIx h w) m

theorem perform_setIy (h : s.pointer ≠ .iy) (w : Word) :
    a.perform s (m.map (·.setIy w)) = ((a.perform s m).1, (a.perform s m).2.map (·.setIy w)) :=
  a.tracks_recast (Pointer.recast_setIy h w) m

theorem ix_perform (h : s.pointer ≠ .ix) : (a.perform s m).2.regs.ix = m.regs.ix :=
  congrArg (·.2.regs.ix) (a.perform_setIx m h m.regs.ix)

theorem iy_perform (h : s.pointer ≠ .iy) : (a.perform s m).2.regs.iy = m.regs.iy :=
  congrArg (·.2.regs.iy) (a.perform_setIy m h m.regs.iy)

end Action

/-! ## The two pages -/

/-- The two pages have the same instructions, but for the names in them. -/
theorem slots_of_index_pages (o : Byte) :
    Page.dd.slot o = .vacant ∧ Page.fd.slot o = .vacant ∨
      ∃ d e, Page.dd.slot o = .instruction d ∧ Page.fd.slot o = .instruction e ∧ e.action = d.action ∧
        e.length = d.length ∧ e.cycles = d.cycles ∧ e.cyclesSkipped = d.cyclesSkipped := by
  have checked : ∀ o, Page.dd.slot o = .vacant ∧ Page.fd.slot o = .vacant ∨
      (Page.dd.slot o).any (fun d => (Page.fd.slot o).any fun e => e.action = d.action ∧ e.length = d.length ∧
        e.cycles = d.cycles ∧ e.cyclesSkipped = d.cyclesSkipped) = true := by
    decide +kernel
  refine (checked o).imp_right fun h => ?_
  obtain ⟨d, hd, hany⟩ := Slot.of_any h
  obtain ⟨e, he, hsame⟩ := Slot.of_any hany
  exact ⟨d, e, hd, he, of_decide_eq_true hsame⟩

/-- The pages of the index registers do the same, each with its own register. -/
theorem index_pages_symmetric (o : Byte) :
    Page.dd.slot o = .vacant ∧ Page.fd.slot o = .vacant ∨
      ∃ d e, Page.dd.slot o = .instruction d ∧ Page.fd.slot o = .instruction e ∧
        e.length = d.length ∧ e.cycles = d.cycles ∧ e.cyclesSkipped = d.cyclesSkipped ∧
        ∀ {β : Type} [PortBus β] (s : Site) (m : Machine β),
          let dd := d.action.perform { s with pointer := .ix }
          let fd := e.action.perform { s with pointer := .iy }
          fd (m.map .swapped) = ((dd m).1, (dd m).2.map .swapped) ∧
          (∀ w, dd (m.map (·.setIy w)) = ((dd m).1, (dd m).2.map (·.setIy w))) ∧ (dd m).2.regs.iy = m.regs.iy ∧
          (∀ w, fd (m.map (·.setIx w)) = ((fd m).1, (fd m).2.map (·.setIx w))) ∧ (fd m).2.regs.ix = m.regs.ix := by
  refine (slots_of_index_pages o).imp_right ?_
  rintro ⟨d, e, hd, he, ha, hlength, hcycles, hskipped⟩
  refine ⟨d, e, hd, he, hlength, hcycles, hskipped, ?_⟩
  intro β _ s m dd fd
  have hdd : ({ s with pointer := .ix } : Site).pointer ≠ .iy := nofun
  have hfd : ({ s with pointer := .iy } : Site).pointer ≠ .ix := nofun
  refine ⟨?_, d.action.perform_setIy m hdd, d.action.iy_perform m hdd, e.action.perform_setIx m hfd,
    e.action.ix_perform m hfd⟩
  simp only [dd, fd, ha]
  exact d.action.perform_swapped m { s with pointer := .ix }

end Micro80
