/-
  Micro80.Proofs.FlagText — which texts stand for which flags. A piece is the name of a bit or
  a hexadecimal byte (`Spells`), with any white space around it (`Written`); pieces with bars
  between them are split and trimmed back (`pieces_intercalate`, `trim_between`), and each
  is read as its byte (`piece?_of_spells`).

  Proved, for any lawful text of flags, every byte and every list of pieces:
  - `read?_written`: the text of the list is read as all its bytes together.
  - `read?_write`: what is written is read as the byte that it was.
-/

import Mathlib.Data.List.Forall2
import Mathlib.Data.List.TakeWhile
import Mathlib.Data.Nat.Digits.Defs
import Mathlib.Tactic.Ring
import Micro80.Snapshot

namespace Micro80

/-! ## Splitting and trimming -/

namespace Text

theorem pieces_eq_splitOn (mark : Char) (cs : List Char) : pieces mark cs = cs.splitOn mark := by
  induction cs with
  | nil => rfl
  | cons c rest ih =>
    rw [pieces, List.splitOn, List.splitOnP_cons_eq_if_modifyHead, ← List.splitOn, ← ih]
    simp only [beq_iff_eq]
    split
    · rfl
    · cases h : pieces mark rest with
      | nil =>
        have hlength := length_pieces mark rest
        rw [h] at hlength
        cases hlength
      | cons piece more => rfl

theorem pieces_intercalate {mark : Char} {ps : List (List Char)} (hps : ps ≠ []) (h : ∀ p ∈ ps, mark ∉ p) :
    pieces mark ([mark].intercalate ps) = ps := by
  rw [pieces_eq_splitOn]
  exact List.splitOn_intercalate mark h hps

theorem mem_trimStart {c : Char} {cs : List Char} (hc : c ∈ cs) (h : isBlank c = false) : c ∈ trimStart cs := by
  rw [← List.takeWhile_append_dropWhile (p := isBlank) (l := cs), List.mem_append] at hc
  rcases hc with hc | hc
  · have hblank := List.mem_takeWhile_imp hc
    rw [h] at hblank
    cases hblank
  · exact hc

/-- Trimming takes nothing but blanks. -/
theorem mem_trim {c : Char} {cs : List Char} (hc : c ∈ cs) (h : isBlank c = false) : c ∈ trim cs :=
  List.mem_reverse.mpr (mem_trimStart (List.mem_reverse.mpr (mem_trimStart hc h)) h)

theorem trimStart_before {before cs : List Char} {c : Char} (hb : ∀ c ∈ before, isBlank c = true)
    (h : isBlank c = false) : trimStart (before ++ c :: cs) = c :: cs := by
  rw [trimStart, List.dropWhile_append_of_pos hb, List.dropWhile_cons_of_neg (by rw [h]; decide)]

theorem trim_between {before text behind : List Char} (hb : ∀ c ∈ before, isBlank c = true)
    (hd : ∀ c ∈ behind, isBlank c = true) (hne : text ≠ []) (ht : ∀ c ∈ text, isBlank c = false) :
    trim (before ++ text ++ behind) = text := by
  obtain ⟨c, cs, hfirst⟩ := List.exists_cons_of_ne_nil hne
  obtain ⟨e, es, hlast⟩ := List.exists_cons_of_ne_nil (List.reverse_eq_nil_iff.not.mpr hne)
  have hc : isBlank c = false := ht c (hfirst ▸ List.mem_cons_self ..)
  have he : isBlank e = false := ht e (List.mem_reverse.mp (hlast ▸ List.mem_cons_self ..))
  have hstart : trimStart (before ++ text ++ behind) = text ++ behind := by
    rw [hfirst, List.append_assoc, List.cons_append, trimStart_before hb hc]
  rw [trim, hstart, List.reverse_append, hlast,
    trimStart_before (fun c hc => hd c (List.mem_reverse.mp hc)) he, ← hlast, List.reverse_reverse]

def isSolid (c : Char) : Bool := !isBlank c && c != '|'

theorem not_blank_of_isSolid {c : Char} (h : isSolid c = true) : isBlank c = false := by
  rw [isSolid, Bool.and_eq_true, Bool.not_eq_true'] at h
  exact h.1

end Text

/-! ## Digits -/

namespace Text.Hex

def IsDigit (c : Char) (v : Nat) : Prop := v < 16 ∧ (c = v.digitChar ∨ c = v.digitChar.toUpper)

theorem IsDigit.value {c : Char} {v : Nat} (h : IsDigit c v) : digitValue? c = some v := by
  have checked : ∀ v < 16, digitValue? v.digitChar = some v ∧ digitValue? v.digitChar.toUpper = some v := by decide
  obtain ⟨hv, rfl | rfl⟩ := h
  · exact (checked v hv).1
  · exact (checked v hv).2

/-- No digit is a sign. -/
theorem IsDigit.solid {c : Char} {v : Nat} (h : IsDigit c v) : isSolid c = true ∧ c ≠ '+' := by
  have checked : ∀ v < 16, (isSolid v.digitChar = true ∧ v.digitChar ≠ '+') ∧
      isSolid v.digitChar.toUpper = true ∧ v.digitChar.toUpper ≠ '+' := by
    decide
  obtain ⟨hv, rfl | rfl⟩ := h
  · exact (checked v hv).1
  · exact (checked v hv).2

theorem solid_of_digits {ds : List Char} {vs : List Nat} (h : List.Forall₂ IsDigit ds vs) :
    ∀ c ∈ ds, isSolid c = true ∧ c ≠ '+' := by
  induction h with
  | nil => exact List.forall_mem_nil _
  | cons hc _ ih => exact List.forall_mem_cons.mpr ⟨hc.solid, ih⟩

theorem toList_number (ds : List Char) : ("0x" ++ String.ofList ds).toList = '0' :: 'x' :: ds := by
  have h : (String.ofList ds).toList = ds := String.toList_ofList
  rw [String.toList_append, h]
  rfl

/-- Digits are read as the number that they are in base sixteen, the last one counting least. -/
theorem number?_of_digits {ds : List Char} {vs : List Nat} (hne : ds ≠ []) (h : List.Forall₂ IsDigit ds vs) :
    number? ds = some (Nat.ofDigits 16 vs.reverse) := by
  have hfold : ∀ n, ds.foldlM (fun n c => (digitValue? c).map (16 * n + ·)) n =
      some (16 ^ vs.length * n + Nat.ofDigits 16 vs.reverse) := by
    clear hne
    induction h with
    | nil =>
      intro n
      rw [List.length_nil, pow_zero, one_mul, List.reverse_nil, Nat.ofDigits_nil, Nat.add_zero]
      rfl
    | @cons c v ds vs hc _ ih =>
      intro n
      have hvalue : 16 ^ vs.length * (16 * n + v) + Nat.ofDigits 16 vs.reverse =
          16 ^ (v :: vs).length * n + Nat.ofDigits 16 (v :: vs).reverse := by
        rw [List.reverse_cons, Nat.ofDigits_append, Nat.ofDigits_singleton, List.length_reverse, List.length_cons]
        ring
      rw [List.foldlM_cons, hc.value, Option.map_some, Option.bind_eq_bind, Option.bind_some, ih, hvalue]
  obtain ⟨d, ds, rfl⟩ := List.exists_cons_of_ne_nil hne
  rw [number?, hfold, Nat.mul_zero, Nat.zero_add]
  exact List.cons_ne_nil d ds

end Text.Hex

/-! ## Pieces -/

namespace Flags

open Snapshot (FlagText)
open Text (isBlank isSolid trim pieces)
open Text.Hex (IsDigit)

theorem namesBits_declared : FlagText.NamesBits declared := ⟨by decide, by decide, by decide⟩

/-- The name of a bit, or `0x` with the digits of a byte. -/
inductive Spells : String → Byte → Prop where
  | name {n : String} {b : Byte} : (n, b) ∈ declared → Spells n b
  | number {ds : List Char} {vs : List Nat} {b : Byte} :
      ds ≠ [] → List.Forall₂ IsDigit ds vs → Nat.ofDigits 16 vs.reverse = b.toNat → Spells ("0x" ++ String.ofList ds) b

/-- A piece with white space around it, or none. -/
def Written (p : String) (b : Byte) : Prop :=
  ∃ before text behind, (∀ c ∈ before.toList, isBlank c = true) ∧ Spells text b ∧
    (∀ c ∈ behind.toList, isBlank c = true) ∧ p = before ++ text ++ behind

theorem Spells.solid {text : String} {b : Byte} (h : Spells text b) :
    text.toList ≠ [] ∧ ∀ c ∈ text.toList, isSolid c = true := by
  cases h with
  | @name n b hn =>
    have checked : ∀ d ∈ declared, d.1.toList ≠ [] ∧ d.1.toList.all isSolid = true := by decide
    obtain ⟨hne, hall⟩ := checked _ hn
    exact ⟨hne, List.all_eq_true.mp hall⟩
  | @number ds vs b hne hds hvalue =>
    rw [Text.Hex.toList_number]
    refine ⟨List.cons_ne_nil _ _, List.forall_mem_cons.mpr ⟨rfl, List.forall_mem_cons.mpr ⟨rfl, fun c hc => ?_⟩⟩⟩
    exact (Text.Hex.solid_of_digits hds c hc).1

namespace Written

variable {p : String} {b : Byte}

theorem of_spells (h : Spells p b) : Written p b :=
  ⟨"", p, "", List.forall_mem_nil _, h, List.forall_mem_nil _, by rw [String.empty_append, String.append_empty]⟩

theorem toList_eq (h : Written p b) : ∃ before behind : List Char, ∃ text, p.toList = before ++ text.toList ++ behind ∧
    (∀ c ∈ before, isBlank c = true) ∧ (∀ c ∈ behind, isBlank c = true) ∧ Spells text b := by
  obtain ⟨before, text, behind, hbefore, htext, hbehind, rfl⟩ := h
  exact ⟨_, _, text, by rw [String.toList_append, String.toList_append], hbefore, hbehind, htext⟩

/-- What stands between the blanks is what was written between them. -/
theorem spells_trim (h : Written p b) : Spells (String.ofList (trim p.toList)) b := by
  obtain ⟨before, behind, text, hp, hbefore, hbehind, htext⟩ := h.toList_eq
  have hplain : ∀ c ∈ text.toList, isBlank c = false := fun c hc => Text.not_blank_of_isSolid (htext.solid.2 c hc)
  rwa [hp, Text.trim_between hbefore hbehind htext.solid.1 hplain, String.ofList_toList]

theorem bar_not_mem (h : Written p b) : '|' ∉ p.toList := by
  obtain ⟨before, behind, text, hp, hbefore, hbehind, htext⟩ := h.toList_eq
  have hbar : isBlank '|' ≠ true ∧ isSolid '|' ≠ true := by decide
  rw [hp, List.mem_append, List.mem_append]
  rintro ((hc | hc) | hc)
  · exact hbar.1 (hbefore _ hc)
  · exact hbar.2 (htext.solid.2 _ hc)
  · exact hbar.1 (hbehind _ hc)

theorem exists_not_blank (h : Written p b) : ∃ c ∈ p.toList, isBlank c = false := by
  obtain ⟨before, behind, text, hp, -, -, htext⟩ := h.toList_eq
  obtain ⟨c, hc⟩ := List.exists_mem_of_ne_nil _ htext.solid.1
  refine ⟨c, ?_, Text.not_blank_of_isSolid (htext.solid.2 c hc)⟩
  rw [hp]
  exact List.mem_append_left _ (List.mem_append_right _ hc)

/-- Pieces may be put further apart. -/
theorem behind_space (h : Written p b) : Written (" " ++ p) b := by
  obtain ⟨before, text, behind, hbefore, htext, hbehind, rfl⟩ := h
  refine ⟨" " ++ before, text, behind, ?_, htext, hbehind, by simp only [String.append_assoc]⟩
  rw [String.toList_append]
  exact List.forall_mem_append.mpr ⟨List.all_eq_true.mp rfl, hbefore⟩

end Written

/-! ## Texts -/

section
variable {t : FlagText} (ht : t.Lawful)
include ht

theorem piece?_of_spells {text : String} {b : Byte} (h : Spells text b) : t.piece? declared text = some b := by
  cases h with
  | name hn => exact ht.piece?_name _ _ _ namesBits_declared hn
  | number hne hds hvalue =>
    refine ht.piece?_number _ _ _ ?_
    rw [Text.Hex.number?_of_digits hne hds, hvalue]

theorem foldlM_written {ps : List String} {bs : List Byte} (h : List.Forall₂ Written ps bs) (a : Byte) :
    (ps.map String.toList).foldlM
        (fun b piece => (t.piece? declared (String.ofList (trim piece))).map (b ||| ·)) a =
      some (bs.foldl (· ||| ·) a) := by
  induction h generalizing a with
  | nil => rfl
  | cons hp _ ih =>
    rw [List.map_cons, List.foldlM_cons, piece?_of_spells ht hp.spells_trim, Option.map_some, Option.bind_eq_bind,
      Option.bind_some, ih, List.foldl_cons]

/-- Pieces in any order and any number are read as all their bytes together. -/
theorem read?_written {ps : List String} {bs : List Byte} (hps : ps ≠ []) (h : List.Forall₂ Written ps bs) :
    t.read? declared ("|".intercalate ps) = some (bs.foldl (· ||| ·) 0) := by
  have hwritten : ∀ p ∈ ps, ∃ b, Written p b := by
    clear hps
    induction h with
    | nil => exact List.forall_mem_nil _
    | cons hp _ ih => exact List.forall_mem_cons.mpr ⟨⟨_, hp⟩, ih⟩
  have hpieces : pieces '|' ("|".intercalate ps).toList = ps.map String.toList := by
    rw [String.toList_intercalate]
    refine Text.pieces_intercalate (by simpa using hps) fun q hq => ?_
    obtain ⟨p, hp, rfl⟩ := List.mem_map.mp hq
    obtain ⟨b, hb⟩ := hwritten p hp
    exact hb.bar_not_mem
  have hplain : ∃ c ∈ ("|".intercalate ps).toList, isBlank c = false := by
    obtain ⟨p, rest, rfl⟩ := List.exists_cons_of_ne_nil hps
    obtain ⟨b, hb⟩ := hwritten p (List.mem_cons_self ..)
    obtain ⟨c, hc, hplain⟩ := hb.exists_not_blank
    refine ⟨c, ?_, hplain⟩
    cases rest with
    | nil => rwa [String.intercalate_singleton]
    | cons q rest =>
      rw [String.intercalate_cons_cons, String.append_assoc, String.toList_append]
      exact List.mem_append_left _ hc
  rw [ht.read?_pieces _ _ hplain, hpieces]
  exact foldlM_written ht h 0

end

/-! ## The text that is written -/

/-- The names of the bits that are set, from the top. -/
def canonical (b : Byte) : String := " | ".intercalate (FlagText.setNames declared b)

/-- A bar with a blank on either side is a bar between pieces. -/
theorem exists_written {ns : List String} {bs : List Byte} (h : List.Forall₂ Spells ns bs) :
    ∃ ps, List.Forall₂ Written ps bs ∧ "|".intercalate ps = " | ".intercalate ns := by
  induction h with
  | nil => exact ⟨[], .nil, rfl⟩
  | @cons n b ns bs hn h ih =>
    obtain ⟨ps, hps, htext⟩ := ih
    cases h with
    | nil => exact ⟨[n], .cons (.of_spells hn) .nil, by rw [String.intercalate_singleton, String.intercalate_singleton]⟩
    | cons hn' h =>
      cases hps with
      | cons hp hps =>
        have hspaced : Written (n ++ " ") b :=
          ⟨"", n, " ", List.forall_mem_nil _, hn, List.all_eq_true.mp rfl, by rw [String.empty_append]⟩
        refine ⟨_, .cons hspaced (.cons hp.behind_space hps), ?_⟩
        have hbar : " " ++ "|" ++ " " = " | " := rfl
        rw [String.intercalate_cons_cons, String.intercalate_cons_append, htext, String.intercalate_cons_cons, ← hbar]
        simp only [String.append_assoc]

/-- The bits of a byte make the byte up. -/
theorem foldl_setBits (b : Byte) :
    ((declared.filter fun d => b &&& d.2 == d.2).map (·.2)).foldl (· ||| ·) 0 = b := by
  revert b
  decide +kernel

/-- What is written is read as it was. -/
theorem read?_write {t : FlagText} (ht : t.Lawful) (b : Byte) : t.read? declared (t.write declared b) = some b := by
  have hspells : List.Forall₂ Spells (FlagText.setNames declared b)
      ((declared.filter fun d => b &&& d.2 == d.2).map (·.2)) := by
    rw [FlagText.setNames, List.forall₂_map_left_iff, List.forall₂_map_right_iff, List.forall₂_same]
    exact fun d hd => .name (List.mem_of_mem_filter hd)
  obtain ⟨ps, hps, htext⟩ := exists_written hspells
  rw [ht.write_eq _ _ namesBits_declared, ← htext]
  by_cases hne : ps = []
  · subst hne
    have hzero := foldl_setBits b
    rw [List.forall₂_nil_left_iff.mp hps] at hzero
    rw [← hzero]
    exact ht.read?_blank _ _ (List.forall_mem_nil _)
  · rw [read?_written ht hne hps, foldl_setBits]

end Flags

end Micro80
