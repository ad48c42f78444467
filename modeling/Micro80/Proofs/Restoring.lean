/-
  Micro80.Proofs.Restoring — register files that are saved and restored, with any lawful
  interchange and any lawful text of flags. What is read of a record hangs on the entries that it
  declares (`fields?_of_perm`), and what is written of one is read back (`fields?_ofFields`).

  Proved, for every register file, every object and every list of flag names and bytes:
  - `snapshot_restores`: a register file is restored as it was saved, and no two are saved
    alike. Neither the order of the entries nor further entries make a difference. Flags are
    read from their names and bytes in any order, and written in one.
  - `Dialect.restore?_save`: a dialect is restored as it was saved.
-/

import Mathlib.Data.List.Nodup
import Micro80.Proofs.Plain

namespace Micro80

open Snapshot (Interchange FlagText Value plain barred plain_lawful barred_lawful own)

/-! ## Records -/

namespace Snapshot

section
variable {V : Type} {declared : List String} {entries entries' : List (String × V)}

theorem mem_map_own {name : String} (h : name ∈ declared) :
    name ∈ (own declared entries).map (·.1) ↔ name ∈ entries.map (·.1) := by
  simp only [List.mem_map, mem_own]
  constructor
  · rintro ⟨e, ⟨he, -⟩, rfl⟩
    exact ⟨e, he, rfl⟩
  · rintro ⟨e, he, rfl⟩
    exact ⟨e, ⟨he, h⟩, rfl⟩

theorem exists_fields (h : ∀ name ∈ declared, name ∈ entries.map (·.1)) :
    ∃ fields : List (String × V), fields.map (·.1) = declared ∧ fields ⊆ entries := by
  induction declared with
  | nil => exact ⟨[], rfl, List.nil_subset _⟩
  | cons name declared ih =>
    obtain ⟨hname, hrest⟩ := List.forall_mem_cons.mp h
    obtain ⟨e, he, rfl⟩ := List.mem_map.mp hname
    obtain ⟨fields, rfl, hfields⟩ := ih hrest
    exact ⟨e :: fields, rfl, List.cons_subset.mpr ⟨he, hfields⟩⟩

variable {io : Interchange V} (hio : io.Lawful)
include hio

theorem fields?_of_perm (h : (own declared entries).Perm (own declared entries')) :
    io.fields? declared (io.object entries) = io.fields? declared (io.object entries') := by
  have hnames := h.map (·.1)
  by_cases hn : ((own declared entries).map (·.1)).Nodup
  · by_cases hall : ∀ name ∈ declared, name ∈ entries.map (·.1)
    · obtain ⟨fields, rfl, hfields⟩ := exists_fields hall
      have hfields' : fields ⊆ entries' := fun f hf =>
        (mem_own.mp (h.mem_iff.mp (mem_own.mpr ⟨hfields hf, List.mem_map_of_mem hf⟩))).1
      rw [hio.fields?_object _ _ hn hfields, hio.fields?_object _ _ (hnames.nodup_iff.mp hn) hfields']
    · obtain ⟨name, hdeclared, hmissing⟩ : ∃ name ∈ declared, name ∉ entries.map (·.1) := by
        simpa only [not_forall, exists_prop] using hall
      have hmissing' : name ∉ entries'.map (·.1) := by
        rwa [← mem_map_own hdeclared, ← hnames.mem_iff, mem_map_own hdeclared]
      rw [hio.fields?_missing _ _ _ hdeclared hmissing, hio.fields?_missing _ _ _ hdeclared hmissing']
  · rw [hio.fields?_repeated _ _ hn, hio.fields?_repeated _ _ (hnames.nodup_iff.not.mp hn)]

theorem fields?_ofFields {fields : List (String × V)} (hn : (fields.map (·.1)).Nodup) :
    io.fields? (fields.map (·.1)) (io.ofFields fields) = some (fields.map (·.2)) := by
  obtain ⟨entries, hperm, hwritten⟩ := hio.ofFields_eq fields hn
  have hnodup : (entries.map (·.1)).Nodup := (hperm.map _).nodup_iff.mpr hn
  have hown : ((own (fields.map (·.1)) entries).map (·.1)).Nodup := hnodup.sublist (List.filter_sublist.map _)
  rw [hwritten, hio.fields?_object _ _ hown hperm.symm.subset]

end

end Snapshot

/-! ## Saving and restoring -/

section
variable {V : Type} {io : Interchange V} (hio : io.Lawful)
include hio

theorem Dialect.restore?_save (d : Dialect) : Dialect.restore? io (d.save io) = some d := by
  have hname : d.name ∈ names := by cases d <;> decide
  rw [restore?, save, hio.variant?_ofVariant _ _ hname, Option.bind_eq_bind, Option.bind_some]
  cases d <;> rfl

variable {t : FlagText} (ht : t.Lawful)
include ht

theorem Flags.restore?_save (f : Flags) : Flags.restore? io t (f.save io t) = some f := by
  rw [restore?, save, hio.text?_ofText, Option.bind_eq_bind, Option.bind_some, read?_write ht, Option.map_some,
    ofByte_toByte]

namespace Registers

theorem ofFields?_fields (r : Registers) : ofFields? io t ((r.fields io t).map (·.2)) = some r := by
  simp only [fields, List.map_cons, List.map_nil, ofFields?, hio.byte?_ofByte, hio.word?_ofWord, hio.bool?_ofBool,
    Flags.restore?_save hio ht, Option.bind_eq_bind, Option.bind_some]
  rfl

theorem restore?_save (r : Registers) : restore? io t (r.save io t) = some r := by
  have hnodup : ((r.fields io t).map (·.1)).Nodup := by
    rw [map_fields]
    decide
  have hread := Snapshot.fields?_ofFields hio hnodup
  rw [map_fields] at hread
  rw [restore?, save, hread, Option.bind_eq_bind, Option.bind_some, ofFields?_fields hio ht]

end Registers

end

namespace Registers

/-- A register file comes back as it was saved, whatever the order of its entries and whatever
    stands beside them; flags come back from any text of them, and go out as one. -/
theorem snapshot_restores {V : Type} (io : Interchange V) (t : FlagText) (hio : io.Lawful) (ht : t.Lawful) :
    (∀ r : Registers, restore? io t (r.save io t) = some r) ∧ Function.Injective (save io t) ∧
      (∀ entries entries', (own fieldNames entries).Perm (own fieldNames entries') →
        restore? io t (io.object entries) = restore? io t (io.object entries')) ∧
      ∀ ps bs, ps ≠ [] → List.Forall₂ Flags.Written ps bs →
        (Flags.restore? io t (io.ofText ("|".intercalate ps))).map (fun f => (f.toByte, f.save io t)) =
          some (bs.foldl (· ||| ·) 0, io.ofText (Flags.canonical (bs.foldl (· ||| ·) 0))) := by
  refine ⟨restore?_save hio ht, ?_, ?_, ?_⟩
  · intro r r' h
    have hr := restore?_save hio ht r
    rw [h, restore?_save hio ht r'] at hr
    exact (Option.some.inj hr).symm
  · intro entries entries' h
    rw [restore?, restore?, Snapshot.fields?_of_perm hio h]
  · intro ps bs hps h
    rw [Flags.restore?, hio.text?_ofText, Option.bind_eq_bind, Option.bind_some, Flags.read?_written ht hps h,
      Option.map_some, Option.map_some, Flags.toByte_ofByte, Flags.save, Flags.toByte_ofByte,
      ht.write_eq _ _ Flags.namesBits_declared, Flags.canonical]

/-- Values, with the entries from the last to the first behind one that no register file has; a
    flag that is named twice, and others by the byte that they make. -/
theorem snapshot_restores_reordered :
    let r : Registers := { a := 0x42, f := Flags.ofByte 0x28, ix := 0xBEEF, iff1 := true, im := 2 }
    let entries := r.fields plain barred
    let mixed := ("cycles", Value.natural 7) :: entries.reverse
    let ps := [" C", "0x2A ", "S", "C\u2003"]
    let bs : List Byte := [0x01, 0x2A, 0x80, 0x01]
    (plain.Lawful ∧ barred.Lawful) ∧ (own fieldNames entries).Perm (own fieldNames mixed) ∧
      (ps ≠ [] ∧ List.Forall₂ Flags.Written ps bs) ∧
      restore? plain barred (r.save plain barred) = some r ∧
      restore? plain barred (.object entries) = restore? plain barred (.object mixed) ∧
      (Flags.restore? plain barred (.text ("|".intercalate ps))).map (fun f => (f.toByte, f.save plain barred)) =
        some (0xAB, .text "S | Y | X | N | C") := by
  intro r entries mixed ps bs
  have hperm : (own fieldNames entries).Perm (own fieldNames mixed) := by
    have hown : own fieldNames mixed = (own fieldNames entries).reverse := List.filter_reverse ..
    rw [hown]
    exact (List.reverse_perm _).symm
  have hdigits : List.Forall₂ Text.Hex.IsDigit ['2', 'A'] [2, 10] :=
    .cons ⟨by decide, .inl rfl⟩ (.cons ⟨by decide, .inr rfl⟩ .nil)
  have hc : Flags.Spells "C" 0x01 := .name (by decide)
  have hs : Flags.Spells "S" 0x80 := .name (by decide)
  have hwritten : List.Forall₂ Flags.Written ps bs :=
    .cons ⟨" ", "C", "", List.all_eq_true.mp rfl, hc, List.forall_mem_nil _, rfl⟩
      (.cons ⟨"", "0x2A", " ", List.forall_mem_nil _, .number (List.cons_ne_nil _ _) hdigits rfl,
          List.all_eq_true.mp rfl, rfl⟩
        (.cons (.of_spells hs)
          (.cons ⟨"", "C", "\u2003", List.forall_mem_nil _, hc, List.all_eq_true.mp rfl, rfl⟩ .nil)))
  have hcanonical : Flags.canonical 0xAB = "S | Y | X | N | C" := by decide +kernel
  obtain ⟨hrestored, -, horder, hflags⟩ := snapshot_restores plain barred plain_lawful barred_lawful
  have hread := hflags ps bs (List.cons_ne_nil _ _) hwritten
  rw [show bs.foldl (· ||| ·) 0 = 0xAB from rfl, hcanonical] at hread
  exact ⟨⟨plain_lawful, barred_lawful⟩, hperm, ⟨List.cons_ne_nil _ _, hwritten⟩, hrestored r,
    horder entries mixed hperm, hread⟩

end Registers

end Micro80
