/-
  Micro80.Proofs.Pattern — text with places left open. A pattern fixes some columns of a
  text and leaves others open, its holes. Two texts that print one pattern are equal just when the
  same stands in the holes (`Prints.eq_iff`).

  Of a list of patterns it is settled column by column whether a text can print two of
  them (`apart`): as long as the patterns that agree so far have a column fixed, they
  part by it, and a hole parts nothing. No text prints two patterns that were told
  apart, unless their labels are kin (`kin_of_apart`).

  Columns are bytes, which are cheap to compute with; where all are ASCII they are the
  characters (`isPlain_of_ascii`).
-/

import Mathlib.Data.List.Pairwise
import Micro80.Text.Disassembly

namespace Micro80

/-! ## Columns -/

def columns (s : String) : List Nat := s.toByteArray.data.toList.map UInt8.toNat

theorem columns_append (s t : String) : columns (s ++ t) = columns s ++ columns t := by
  simp only [columns, String.toByteArray_append, ByteArray.data_append, Array.toList_append, List.map_append]

theorem columns_inj {s t : String} : columns s = columns t ↔ s = t := by
  constructor
  · intro h
    have hlist := (List.map_inj_right fun _ _ => UInt8.toNat_inj.mp).mp h
    exact String.toByteArray_inj.mp (ByteArray.ext (Array.toList_inj.mp hlist))
  · rintro rfl
    rfl

theorem columns_eq_flatMap (s : String) : columns s = (s.toList.flatMap String.utf8EncodeChar).map UInt8.toNat := by
  rw [columns, ← String.utf8Encode_toList, List.utf8Encode, List.toList_data_toByteArray]

def IsPlain (s : String) : Prop := s.length = (columns s).length

theorem IsPlain.append {s t : String} (hs : IsPlain s) (ht : IsPlain t) : IsPlain (s ++ t) := by
  unfold IsPlain at *
  rw [String.length_append, columns_append, List.length_append, hs, ht]

/-- The last byte of a character past ASCII has its top bit set. -/
theorem length_utf8EncodeChar {c : Char} (h : ∀ x ∈ String.utf8EncodeChar c, x.toNat < 128) :
    (String.utf8EncodeChar c).length = 1 := by
  have hlast : ∀ v : Nat, 128 ≤ (UInt8.ofNat (v % 64 + 128)).toNat := by
    intro v
    rw [UInt8.toNat_ofNat']
    omega
  by_cases hc : c.val.toNat ≤ 127
  · simp only [String.utf8EncodeChar, if_pos hc, List.length_singleton]
  · have hm : UInt8.ofNat (c.val.toNat % 64 + 128) ∈ String.utf8EncodeChar c := by
      simp only [String.utf8EncodeChar, if_neg hc]
      split
      · simp
      · split <;> simp
    have hlow := h _ hm
    have hhigh := hlast c.val.toNat
    omega

theorem isPlain_of_ascii {s : String} (h : ∀ x ∈ columns s, x < 128) : IsPlain s := by
  rw [columns_eq_flatMap] at h
  rw [IsPlain, columns_eq_flatMap, ← String.length_toList]
  generalize s.toList = cs at h
  induction cs with
  | nil => rfl
  | cons c cs ih =>
    rw [List.flatMap_cons, List.map_append, List.forall_mem_append] at h
    have hc : (String.utf8EncodeChar c).length = 1 :=
      length_utf8EncodeChar fun x hx => h.1 _ (List.mem_map_of_mem hx)
    have hcs := ih h.2
    rw [List.flatMap_cons, List.map_append, List.length_append, List.length_map, hc, List.length_cons]
    omega

theorem columns_ofList {cs : List Char} (h : ∀ c ∈ cs, c.val.toNat ≤ 127) :
    columns (String.ofList cs) = cs.map (·.val.toNat) := by
  rw [columns_eq_flatMap, String.toList_ofList]
  induction cs with
  | nil => rfl
  | cons c cs ih =>
    rw [List.forall_mem_cons] at h
    have hc : (UInt8.ofNat c.val.toNat).toNat = c.val.toNat := by
      rw [UInt8.toNat_ofNat']
      omega
    rw [List.flatMap_cons, List.map_append, ih h.2, String.utf8EncodeChar, if_pos h.1, List.map_singleton, hc]
    rfl

theorem isPlain_ofList {cs : List Char} (h : ∀ c ∈ cs, c.val.toNat ≤ 127) : IsPlain (String.ofList cs) := by
  rw [IsPlain, columns_ofList h, String.length_ofList, List.length_map]

/-! ## Patterns -/

/-- The columns of a text; a hole is `none`. -/
abbrev Pattern := List (Option Nat)

namespace Pattern

def text (s : String) : Pattern := (columns s).map some

theorem text_append (s t : String) : text (s ++ t) = text s ++ text t := by
  rw [text, columns_append, List.map_append, text, text]

def holes (n : Nat) : Pattern := List.replicate n none

def blanks (n : Nat) : Pattern := List.replicate n (some 32)

def padded (width : Nat) (p : Pattern) : Pattern := p ++ blanks (width - p.length)

def joined (p q : Pattern) : Pattern := if p.isEmpty then q else if q.isEmpty then p else p ++ (text "," ++ q)

/-- The columns `cs` are those of the pattern, the holes filled with `hs`. -/
inductive Fits : Pattern → List Nat → List Nat → Prop where
  | nil : Fits [] [] []
  | fixed {p : Pattern} {hs cs : List Nat} (c : Nat) : Fits p hs cs → Fits (some c :: p) hs (c :: cs)
  | hole {p : Pattern} {hs cs : List Nat} (c : Nat) : Fits p hs cs → Fits (none :: p) (c :: hs) (c :: cs)

theorem Fits.append {p q : Pattern} {hs ks cs ds : List Nat} (h : Fits p hs cs) (k : Fits q ks ds) :
    Fits (p ++ q) (hs ++ ks) (cs ++ ds) := by
  induction h with
  | nil => exact k
  | fixed c _ ih => exact .fixed c ih
  | hole c _ ih => exact .hole c ih

/-- The columns of a pattern differ in the holes. -/
theorem Fits.eq_iff {p : Pattern} {hs ks cs ds : List Nat} (h : Fits p hs cs) (k : Fits p ks ds) :
    cs = ds ↔ hs = ks := by
  induction h generalizing ks ds with
  | nil =>
    cases k
    exact Iff.rfl
  | fixed c _ ih =>
    cases k with
    | fixed _ k => rw [List.cons.injEq, eq_self, true_and, ih k]
  | hole c _ ih =>
    cases k with
    | hole _ k => rw [List.cons.injEq, List.cons.injEq, ih k]

theorem fits_fixed (cs : List Nat) : Fits (cs.map some) [] cs := by
  induction cs with
  | nil => exact .nil
  | cons c cs ih => exact .fixed c ih

theorem fits_holes (cs : List Nat) : Fits (holes cs.length) cs cs := by
  induction cs with
  | nil => exact .nil
  | cons c cs ih => exact .hole c ih

/-! ## Texts that print a pattern -/

/-- The text `s` is the pattern with `e` in its holes, a column a character. -/
structure Prints (p : Pattern) (e s : String) : Prop where
  fits : Fits p (columns e) (columns s)
  length : s.length = p.length

namespace Prints

variable {p q : Pattern} {e f s t : String}

theorem append (h : Prints p e s) (k : Prints q f t) : Prints (p ++ q) (e ++ f) (s ++ t) where
  fits := by
    rw [columns_append, columns_append]
    exact h.fits.append k.fits
  length := by rw [String.length_append, List.length_append, h.length, k.length]

/-- Two texts of one pattern differ in the holes. -/
theorem eq_iff (h : Prints p e s) (k : Prints p f t) : s = t ↔ e = f := by
  rw [← columns_inj, ← columns_inj, h.fits.eq_iff k.fits]

theorem fixed (hs : IsPlain s) : Prints (text s) "" s where
  fits := fits_fixed _
  length := by
    rw [text, List.length_map]
    exact hs

theorem holes {n : Nat} (hs : IsPlain s) (hn : s.length = n) : Prints (holes n) s s where
  fits := by
    rw [← hn, hs]
    exact fits_holes _
  length := hn.trans List.length_replicate.symm

theorem isEmpty_eq (h : Prints p e s) : s.isEmpty = p.isEmpty := by
  have hl := h.length
  cases p with
  | nil =>
    rw [String.length_eq_zero_iff.mp hl]
    rfl
  | cons c p =>
    rw [List.isEmpty_cons, Bool.eq_false_iff]
    intro he
    rw [String.isEmpty_iff.mp he] at hl
    cases hl

/-- There is nothing to fill in where there is nothing to print. -/
theorem eq_empty (h : Prints [] e s) : e = "" := by
  obtain ⟨hf, -⟩ := h
  generalize hc : columns e = hs at hf
  generalize columns s = cs at hf
  cases hf
  exact columns_inj.mp hc

/-- Text in front of what is printed. -/
theorem behind (h : Prints p e s) (ht : IsPlain t) : Prints (text t ++ p) e (t ++ s) := by
  have happ := (fixed ht).append h
  rwa [String.empty_append] at happ

/-- Text after what is printed. -/
theorem before (h : Prints p e s) (ht : IsPlain t) : Prints (p ++ text t) e (s ++ t) := by
  have happ := h.append (fixed ht)
  rwa [String.append_empty] at happ

theorem padded (width : Nat) (h : Prints p e s) : Prints (p.padded width) e (Disassembly.padded width s) := by
  have hascii : ∀ c ∈ List.replicate (width - p.length) ' ', c.val.toNat ≤ 127 := by
    intro c hc
    rw [List.eq_of_mem_replicate hc]
    decide
  have hblanks : text (String.ofList (List.replicate (width - p.length) ' ')) = blanks (width - p.length) := by
    rw [text, columns_ofList hascii, List.map_replicate, List.map_replicate]
    rfl
  have hp := h.before (isPlain_ofList hascii)
  rw [hblanks] at hp
  rw [Disassembly.padded, h.length]
  exact hp

theorem joined {d : Disassembly} (h : Prints p e d.dst) (k : Prints q f d.src) :
    Prints (joined p q) (e ++ f) d.operands := by
  unfold Pattern.joined Disassembly.operands
  rw [h.isEmpty_eq, k.isEmpty_eq]
  by_cases hp : p.isEmpty = true
  · obtain rfl := List.isEmpty_iff.mp hp
    rw [if_pos hp, if_pos hp, h.eq_empty, String.empty_append]
    exact k
  · rw [if_neg hp, if_neg hp]
    by_cases hq : q.isEmpty = true
    · obtain rfl := List.isEmpty_iff.mp hq
      rw [if_pos hq, if_pos hq, k.eq_empty, String.append_empty]
      exact h
    · rw [if_neg hq, if_neg hq, String.append_assoc]
      exact h.append (k.behind rfl)

end Prints

/-! ## Telling patterns apart -/

section
variable {α : Type}

def heads (rows : List (α × Pattern)) : List (Option (Option Nat)) := (rows.map (·.2.head?)).eraseDups

def behind (h : Option (Option Nat)) (rows : List (α × Pattern)) : List (α × Pattern) :=
  (rows.filter (·.2.head? = h)).map fun r => (r.1, r.2.tail)

/-- Within `depth` columns at most kin are left together, and nowhere does a hole meet a fixed
    column. -/
def apart (kin : α → α → Bool) : (depth : Nat) → List (α × Pattern) → Bool
  | 0, rows => rows.Pairwise fun r s => kin r.1 s.1 = true
  | depth + 1, rows => rows.length ≤ 1 ||
    (!(heads rows).contains (some none) || (heads rows).length ≤ 1) &&
      (heads rows).all fun h => apart kin depth (behind h rows)

theorem head?_mem_heads {r : α × Pattern} {rows : List (α × Pattern)} (h : r ∈ rows) : r.2.head? ∈ heads rows :=
  List.mem_eraseDups.mpr (List.mem_map_of_mem h)

theorem tail_mem_behind {r : α × Pattern} {rows : List (α × Pattern)} (h : r ∈ rows) :
    (r.1, r.2.tail) ∈ behind r.2.head? rows := by
  apply List.mem_map_of_mem (f := fun r : α × Pattern => (r.1, r.2.tail))
  exact List.mem_filter.mpr ⟨h, decide_eq_true rfl⟩

theorem eq_of_length_le_one {β : Type} {l : List β} (h : l.length ≤ 1) {x y : β} (hx : x ∈ l) (hy : y ∈ l) : x = y := by
  match l, h with
  | [z], _ =>
    rw [List.mem_singleton.mp hx, List.mem_singleton.mp hy]

/-- Patterns of one text begin alike, unless one begins with a hole. -/
theorem Fits.head_eq {p q : Pattern} {hs ks cs : List Nat} (h : Fits p hs cs) (k : Fits q ks cs)
    (hp : p.head? ≠ some none) (hq : q.head? ≠ some none) : p.head? = q.head? := by
  cases h with
  | nil =>
    cases k
    rfl
  | fixed c _ =>
    cases k with
    | fixed _ _ => rfl
    | hole _ _ => exact absurd rfl hq
  | hole c _ => exact absurd rfl hp

theorem Fits.tail {p : Pattern} {hs cs : List Nat} (h : Fits p hs cs) : ∃ ks, Fits p.tail ks cs.tail := by
  cases h with
  | nil => exact ⟨[], .nil⟩
  | fixed c h => exact ⟨_, h⟩
  | hole c h => exact ⟨_, h⟩

/-- A text prints two rows only if they are kin. -/
theorem kin_of_apart {kin : α → α → Bool} {depth : Nat} {rows : List (α × Pattern)} (h : apart kin depth rows = true)
    {a b : α} {p q : Pattern} (ha : (a, p) ∈ rows) (hb : (b, q) ∈ rows) {hs ks cs : List Nat} (fp : Fits p hs cs)
    (fq : Fits q ks cs) : a = b ∨ kin a b = true ∨ kin b a = true := by
  induction depth generalizing rows p q hs ks cs with
  | zero =>
    let Kin := fun r s : α × Pattern => r.1 = s.1 ∨ kin r.1 s.1 = true ∨ kin s.1 r.1 = true
    have hpairs : rows.Pairwise fun r s => kin r.1 s.1 = true := of_decide_eq_true h
    have hkin : rows.Pairwise Kin := hpairs.imp fun hk => .inr (.inl hk)
    have hsymm : Std.Symm Kin := ⟨fun _ _ hrs => hrs.imp Eq.symm Or.symm⟩
    exact hkin.forall_of_forall (fun _ _ => .inl rfl) ha hb
  | succ depth ih =>
    rw [apart, Bool.or_eq_true, decide_eq_true_eq] at h
    rcases h with hone | h
    · exact .inl (congrArg Prod.fst (eq_of_length_le_one hone ha hb))
    · rw [Bool.and_eq_true, List.all_eq_true, Bool.or_eq_true, decide_eq_true_eq] at h
      obtain ⟨hholes, hbehind⟩ := h
      have hp := head?_mem_heads ha
      have hq := head?_mem_heads hb
      have hhead : p.head? = q.head? := by
        rcases hholes with hnone | hone
        · have hno : some none ∉ heads rows := by simpa using hnone
          exact fp.head_eq fq (fun he => hno (he ▸ hp)) (fun he => hno (he ▸ hq))
        · exact eq_of_length_le_one hone hp hq
      -- both rows go the same way, and what is left of the text prints what is left of both
      obtain ⟨_, fp'⟩ := fp.tail
      obtain ⟨_, fq'⟩ := fq.tail
      have hb' : (b, q.tail) ∈ behind p.head? rows := hhead ▸ tail_mem_behind hb
      exact ih (hbehind _ hp) (tail_mem_behind ha) hb' fp' fq'

end

end Pattern

end Micro80
