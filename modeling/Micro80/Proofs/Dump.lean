/-
  Micro80.Proofs.Dump — what the line of a register file says. A field is as wide for any
  word (`length_field`) and there is a column for each flag (`length_letters`), so that
  the columns stay where they are and the line gives every text in it back
  (`intercalate_inj`).

  Proved, for any two register files:
  - `dump_fixed_width`: both lines have 82 characters, and they are equal just when the
    registers that are shown are, every flag included. The others have no part in them.
-/

import Micro80.Proofs.Digits
import Micro80.Text.Columns

namespace Micro80

/-- Of texts whose lengths are known, the line tells which they are. -/
theorem intercalate_inj {separator : String} {xs ys : List String} (h : xs.map String.length = ys.map String.length) :
    separator.intercalate xs = separator.intercalate ys ↔ xs = ys := by
  refine ⟨fun he => ?_, congrArg separator.intercalate⟩
  induction xs generalizing ys with
  | nil => exact (List.map_eq_nil_iff.mp h.symm).symm
  | cons x xs ih =>
    cases ys with
    | nil => cases h
    | cons y ys =>
      obtain ⟨hx, hxs⟩ := List.cons.inj h
      match xs, ys, hxs with
      | [], [], _ =>
        rw [String.intercalate_singleton, String.intercalate_singleton] at he
        rw [he]
      | x' :: xs, y' :: ys, hxs =>
        rw [String.intercalate_cons_cons, String.intercalate_cons_cons] at he
        obtain ⟨hhead, htail⟩ := append_inj he (by rw [String.length_append, String.length_append, hx])
        rw [(append_inj hhead hx).1, ih hxs htail]

/-! ## Flags -/

namespace Flags

theorem length_letters (f : Flags) : f.letters.length = 8 := String.length_ofList

/-- A column has one mark for a flag that is set and another for one that is clear. -/
theorem mark_inj {set clear : Char} (h : set ≠ clear) {b c : Bool} :
    (if b then set else clear) = (if c then set else clear) ↔ b = c := by
  cases b <;> cases c <;> simp [h, h.symm]

theorem letters_inj {f g : Flags} : f.letters = g.letters ↔ f = g := by
  obtain ⟨s, z, y, h, x, pv, n, c⟩ := f
  obtain ⟨s', z', y', h', x', pv', n', c'⟩ := g
  rw [letters, letters, String.ofList_inj]
  simp (disch := decide) only [columns, List.cons.injEq, mk.injEq, mark_inj, and_true]

end Flags

/-! ## Registers -/

namespace Registers

theorem length_field (name : String) (w : Word) : (field name w).length = name.length + 6 := by
  rw [field, String.length_append, String.length_append, (isHex_word w).1]
  rfl

theorem field_inj {name : String} {v w : Word} : field name v = field name w ↔ v = w := by
  constructor
  · intro h
    exact Text.Hex.word_inj (append_inj h rfl).2
  · rintro rfl
    rfl

theorem length_dump (r : Registers) : r.dump.length = 82 := by
  simp only [dump, String.intercalate_cons_cons, String.intercalate_singleton, String.length_append, length_field,
    Flags.length_letters]
  rfl

theorem dump_inj {r r' : Registers} : r.dump = r'.dump ↔
    r.af = r'.af ∧ r.bc = r'.bc ∧ r.de = r'.de ∧ r.hl = r'.hl ∧ r.ix = r'.ix ∧ r.iy = r'.iy ∧ r.pc = r'.pc ∧
      r.sp = r'.sp ∧ r.f = r'.f := by
  have hflags : "f " ++ r.f.letters = "f " ++ r'.f.letters ↔ r.f = r'.f :=
    ⟨fun h => Flags.letters_inj.mp (append_inj h rfl).2, fun h => by rw [h]⟩
  rw [dump, dump, intercalate_inj]
  · simp only [List.cons.injEq, field_inj, hflags, and_true]
  · simp only [List.map_cons, List.map_nil, length_field, String.length_append, Flags.length_letters]

/-- The line of a register file has the same width for any, and it is the same for two of
    them just when the registers in it are. -/
theorem dump_fixed_width (r r' : Registers) :
    r.dump.length = 82 ∧ r'.dump.length = 82 ∧
      (r.dump = r'.dump ↔
        r.a = r'.a ∧ r.f = r'.f ∧ r.b = r'.b ∧ r.c = r'.c ∧ r.d = r'.d ∧ r.e = r'.e ∧ r.h = r'.h ∧ r.l = r'.l ∧
          r.ix = r'.ix ∧ r.iy = r'.iy ∧ r.pc = r'.pc ∧ r.sp = r'.sp) ∧
      ∀ (afAlt bcAlt deAlt hlAlt : Word) (i n im : Byte) (iff1 iff2 : Bool),
        { r with afAlt, bcAlt, deAlt, hlAlt, i, r := n, iff1, iff2, im }.dump = r.dump := by
  refine ⟨r.length_dump, r'.length_dump, ?_, ?_⟩
  · rw [dump_inj, af, af, bc, bc, de, de, hl, hl]
    simp only [Word.ofBytes_inj, Flags.toByte_inj]
    constructor
    · rintro ⟨⟨ha, hf⟩, ⟨hb, hc⟩, ⟨hd, he⟩, ⟨hh, hl⟩, hix, hiy, hpc, hsp, -⟩
      exact ⟨ha, hf, hb, hc, hd, he, hh, hl, hix, hiy, hpc, hsp⟩
    · rintro ⟨ha, hf, hb, hc, hd, he, hh, hl, hix, hiy, hpc, hsp⟩
      exact ⟨⟨ha, hf⟩, ⟨hb, hc⟩, ⟨hd, he⟩, ⟨hh, hl⟩, hix, hiy, hpc, hsp, hf⟩
  · intros
    rfl

end Registers

end Micro80
