/-
  Micro80.Snapshot.Interchange — what a snapshot is written and read with. Neither the data of
  a format nor the text of a set of flags is made here: both come from outside, so they are
  parameters, and all that is relied on is in `Lawful`.

  - `Interchange V`: data with numbers, truth values, texts and objects; the records of
    declared fields that objects hold, and one of several declared names.
  - `FlagText`: a byte whose bits have declared names, as a text. `piece?` reads what stands
    between two bars.
-/

import Micro80.Text.Blank
import Micro80.Text.Hex

namespace Micro80.Snapshot

structure Interchange (V : Type) where
  ofByte : Byte → V
  byte? : V → Option Byte
  ofWord : Word → V
  word? : V → Option Word
  ofBool : Bool → V
  bool? : V → Option Bool
  ofText : String → V
  text? : V → Option String
  /-- An object that has these entries in this order. -/
  object : List (String × V) → V
  ofFields : List (String × V) → V
  /-- The values of the declared fields, in the order of their declaration. -/
  fields? : List String → V → Option (List V)
  ofVariant : String → V
  variant? : List String → V → Option String

/-- The entries whose names are declared. -/
def own {V : Type} (declared : List String) (entries : List (String × V)) : List (String × V) :=
  entries.filter fun e => declared.contains e.1

theorem mem_own {V : Type} {declared : List String} {entries : List (String × V)} {e : String × V} :
    e ∈ own declared entries ↔ e ∈ entries ∧ e.1 ∈ declared := by
  rw [own, List.mem_filter, List.contains_iff_mem]

structure Interchange.Lawful {V : Type} (io : Interchange V) : Prop where
  byte?_ofByte : ∀ b, io.byte? (io.ofByte b) = some b
  word?_ofWord : ∀ w, io.word? (io.ofWord w) = some w
  bool?_ofBool : ∀ b, io.bool? (io.ofBool b) = some b
  text?_ofText : ∀ s, io.text? (io.ofText s) = some s
  /-- Each field is written under its own name; their order is open. -/
  ofFields_eq : ∀ fields, (fields.map (·.1)).Nodup →
    ∃ entries, entries.Perm fields ∧ io.ofFields fields = io.object entries
  /-- Each field is read from under its own name; names that are not declared are ignored. -/
  fields?_object : ∀ fields entries, ((own (fields.map (·.1)) entries).map (·.1)).Nodup → fields ⊆ entries →
    io.fields? (fields.map (·.1)) (io.object entries) = some (fields.map (·.2))
  /-- A declared name must be there, -/
  fields?_missing : ∀ declared entries name, name ∈ declared → name ∉ entries.map (·.1) →
    io.fields? declared (io.object entries) = none
  /-- and not twice. -/
  fields?_repeated : ∀ declared entries, ¬ ((own declared entries).map (·.1)).Nodup →
    io.fields? declared (io.object entries) = none
  variant?_ofVariant : ∀ names name, name ∈ names → io.variant? names (io.ofVariant name) = some name

structure FlagText where
  write : List (String × Byte) → Byte → String
  piece? : List (String × Byte) → String → Option Byte
  read? : List (String × Byte) → String → Option Byte

namespace FlagText

/-- Every bit of a byte has one name, which begins with a letter. -/
def NamesBits (declared : List (String × Byte)) : Prop :=
  (declared.map (·.1)).Nodup ∧ (∀ d ∈ declared, d.1.toList.head?.any Char.isAlpha = true) ∧
    (declared.map (·.2)).Perm ((List.range 8).map (BitVec.twoPow 8))

/-- The names of the bits that are set, in the order of their declaration. -/
def setNames (declared : List (String × Byte)) (b : Byte) : List String :=
  (declared.filter fun d => b &&& d.2 == d.2).map (·.1)

structure Lawful (t : FlagText) : Prop where
  write_eq : ∀ declared b, NamesBits declared → t.write declared b = " | ".intercalate (setNames declared b)
  piece?_name : ∀ declared name b, NamesBits declared → (name, b) ∈ declared → t.piece? declared name = some b
  piece?_number : ∀ declared digits b, Text.Hex.number? digits = some b.toNat →
    t.piece? declared ("0x" ++ String.ofList digits) = some b
  read?_blank : ∀ declared text, (∀ c ∈ text.toList, Text.isBlank c = true) → t.read? declared text = some 0
  /-- The pieces between bars are trimmed, and each adds the bits that it names. -/
  read?_pieces : ∀ declared text, (∃ c ∈ text.toList, Text.isBlank c = false) →
    t.read? declared text = (Text.pieces '|' text.toList).foldlM
      (fun b piece => (t.piece? declared (String.ofList (Text.trim piece))).map (b ||| ·)) 0

end FlagText

end Micro80.Snapshot
