/-
  Micro80.Proofs.Plain — values are read and written as an interchange should (`plain_lawful`), and
  names with bars between them as a text of flags should (`barred_lawful`).
-/

import Mathlib.Data.List.Nodup
import Micro80.Proofs.FlagText

namespace Micro80.Snapshot

/-! ## Entries -/

section
variable {β : Type} {entries : List (String × β)} {name : String} {v : β}

theorem lookup_of_unique (h : (name, v) ∈ entries) (hunique : ∀ w, (name, w) ∈ entries → w = v) :
    entries.lookup name = some v := by
  have hsome : (entries.lookup name).isSome = true := List.lookup_isSome_iff.mpr ⟨_, h, beq_self_eq_true name⟩
  obtain ⟨w, hw⟩ := Option.isSome_iff_exists.mp hsome
  obtain ⟨before, behind, rfl, -⟩ := List.lookup_eq_some_iff.mp hw
  rw [hw, hunique w (List.mem_append_right _ (List.mem_cons_self ..))]

theorem lookup_of_mem (hn : (entries.map (·.1)).Nodup) (h : (name, v) ∈ entries) : entries.lookup name = some v :=
  lookup_of_unique h fun _ hw => congrArg Prod.snd (List.inj_on_of_nodup_map hn hw h rfl)

theorem lookup_of_mem_own {declared : List String} (hn : ((own declared entries).map (·.1)).Nodup)
    (hname : name ∈ declared) (h : (name, v) ∈ entries) : entries.lookup name = some v :=
  lookup_of_unique h fun _ hw =>
    congrArg Prod.snd (List.inj_on_of_nodup_map hn (mem_own.mpr ⟨hw, hname⟩) (mem_own.mpr ⟨h, hname⟩) rfl)

theorem mapM_lookup {fields : List (String × β)} (h : ∀ f ∈ fields, entries.lookup f.1 = some f.2) :
    ((fields.map (·.1)).mapM fun name => entries.lookup name) = some (fields.map (·.2)) := by
  induction fields with
  | nil => rfl
  | cons f fields ih =>
    obtain ⟨hf, hrest⟩ := List.forall_mem_cons.mp h
    rw [List.map_cons, List.mapM_cons, hf, ih hrest]
    rfl

theorem mapM_lookup_eq_none {declared : List String} (hname : name ∈ declared) (h : name ∉ entries.map (·.1)) :
    (declared.mapM fun name => entries.lookup name) = none := by
  have hnone : entries.lookup name = none :=
    List.lookup_eq_none_iff.mpr fun e he => bne_iff_ne.mpr fun heq => h (heq ▸ List.mem_map_of_mem he)
  induction declared with
  | nil => cases hname
  | cons first declared ih =>
    rw [List.mapM_cons]
    rcases List.mem_cons.mp hname with rfl | hname
    · rw [hnone]
      rfl
    · rw [ih hname]
      cases entries.lookup first <;> rfl

end

/-! ## Values -/

theorem Value.bits?_ofBits {w : Nat} (b : BitVec w) : bits? w (ofBits b) = some b := by
  rw [ofBits, bits?, BitVec.ofNat_toNat, BitVec.setWidth_eq, if_pos rfl]

theorem plain_lawful : plain.Lawful where
  byte?_ofByte := Value.bits?_ofBits
  word?_ofWord := Value.bits?_ofBits
  bool?_ofBool _ := rfl
  text?_ofText _ := rfl
  ofFields_eq fields _ := ⟨fields, List.Perm.refl fields, rfl⟩
  fields?_object fields entries hn hfields := by
    have hlookup : ∀ f ∈ fields, entries.lookup f.1 = some f.2 := fun f hf =>
      lookup_of_mem_own hn (List.mem_map_of_mem hf) (hfields hf)
    exact (if_pos hn).trans (mapM_lookup hlookup)
  fields?_missing declared entries name hdeclared hmissing := by
    have hnone := mapM_lookup_eq_none hdeclared hmissing
    change (if ((own declared entries).map (·.1)).Nodup then _ else none) = none
    rw [hnone, ite_self]
  fields?_repeated _ _ hn := if_neg hn
  variant?_ofVariant names name h := if_pos (List.contains_iff_mem.mpr h)

/-! ## Names with bars between them -/

theorem trim_blank {cs : List Char} (h : ∀ c ∈ cs, Text.isBlank c = true) : Text.trim cs = [] := by
  rw [Text.trim, Text.trimStart, Text.trimStart, List.dropWhile_eq_nil_iff.mpr h]
  rfl

theorem Barred.piece?_name {declared : List (String × Byte)} {name : String} {b : Byte}
    (hd : FlagText.NamesBits declared) (h : (name, b) ∈ declared) : piece? declared name = some b := by
  obtain ⟨hn, hletters, -⟩ := hd
  have hletter := hletters _ h
  unfold piece?
  split
  · next hdigits =>
    rw [hdigits] at hletter
    cases hletter
  · exact lookup_of_mem hn h

theorem Barred.number?_eq {digits : List Char} {b : Byte} (h : Text.Hex.number? digits = some b.toNat) :
    number? digits = some b := by
  have hsign : digits.head? ≠ some '+' := by
    intro hplus
    obtain ⟨rest, rfl⟩ := List.head?_eq_some_iff.mp hplus
    cases h
  rw [number?, if_neg hsign, h, Option.bind_eq_bind, Option.bind_some, if_pos b.isLt, BitVec.ofNat_toNat,
    BitVec.setWidth_eq]

theorem barred_lawful : barred.Lawful where
  write_eq _ _ _ := rfl
  piece?_name _ _ _ hd h := Barred.piece?_name hd h
  piece?_number declared digits b h := by
    change Barred.piece? declared _ = some b
    rw [Barred.piece?, Text.Hex.toList_number]
    exact Barred.number?_eq h
  read?_blank declared text h := by
    change Barred.read? declared text = some 0
    rw [Barred.read?, trim_blank h]
    rfl
  read?_pieces declared text h := by
    obtain ⟨c, hc, hplain⟩ := h
    have hne : ¬ (Text.trim text.toList).isEmpty = true := by
      rw [List.isEmpty_iff]
      exact List.ne_nil_of_mem (Text.mem_trim hc hplain)
    exact if_neg hne

end Micro80.Snapshot
