/-
  Micro80.Proofs.Renaming — the page of an index register, whatever the register is called.
  Every slot of it is the slot of IX with the name in the place of IX's
  (`index_renamed`), row by row as the page is put together: no other name on it is "ix".
  The text of an operand goes round its name (`shown_renamed`), and only an operand that
  has a name can go without one (`shown_eq_empty_iff`).

  Proved, for every name and every opcode:
  - `index_parametric`: both pages have an instruction or neither has, the same but for the
    name. So is the text of its operands, on every memory; where the name is empty there is
    none of the operands that have it.
-/

import Micro80.Proofs.Text

namespace Micro80

open Bus (Flat)
open Disassembly (Frame shown frame ofInstruction ofInstruction_flat)
open Descriptor (zilogOnly)
open Encoding
open Operand (register indexed)

/-! ## Names -/

/-- The name of an operand where IX is called `name`. -/
def renamed (name operand : String) : String := if operand = "ix" then name else operand

def Operand.renamed (name : String) (x : Operand) : Operand := { x with name := Micro80.renamed name x.name }

def Descriptor.renamed (name : String) (d : Descriptor) : Descriptor :=
  { d with zilog := ⟨d.zilog.mnemonic, Micro80.renamed name d.zilog.dst, Micro80.renamed name d.zilog.src⟩ }

def Slot.renamed (name : String) : Slot → Slot
  | instruction d => instruction (d.renamed name)
  | slot => slot

section
variable (name : String)

theorem renamed_zilogOnly (mnemonic : String) (dst src : Operand) (length cycles : Nat) (action : Action) :
    (zilogOnly mnemonic dst src length cycles action).renamed name =
      zilogOnly mnemonic (dst.renamed name) (src.renamed name) length cycles action := rfl

/-- No byte register is called like an index register. -/
theorem renamed_regName (r : Reg) : (register (regName r)).renamed name = register (regName r) := by
  cases r <;> rfl

theorem renamed_aluDestination (code : BitVec 3) : (aluDestination code).renamed name = aluDestination code := by
  unfold aluDestination
  split <;> rfl

theorem renamed_indexed : (indexed "ix").renamed name = indexed name := rfl

/-! ## The page -/

theorem indexFirstQuarter_renamed (y z : BitVec 3) :
    indexFirstQuarter name y z = (indexFirstQuarter "ix" y z).renamed name := by
  unfold indexFirstQuarter
  split <;> rfl

theorem indexMoves_renamed (y z : BitVec 3) : indexMoves name y z = (indexMoves "ix" y z).renamed name := by
  unfold indexMoves
  split
  · rw [Slot.renamed, renamed_zilogOnly, renamed_regName, renamed_indexed]
  · rw [Slot.renamed, renamed_zilogOnly, renamed_regName, renamed_indexed]
  · rfl

theorem indexCombinations_renamed (y z : BitVec 3) :
    indexCombinations name y z = (indexCombinations "ix" y z).renamed name := by
  unfold indexCombinations
  split
  · rw [Slot.renamed, renamed_zilogOnly, renamed_aluDestination, renamed_indexed]
  · rfl

theorem indexLastQuarter_renamed (y z : BitVec 3) :
    indexLastQuarter name y z = (indexLastQuarter "ix" y z).renamed name := by
  unfold indexLastQuarter
  split <;> rfl

theorem index_renamed (o : Byte) : index name o = (index "ix" o).renamed name := by
  unfold index
  split
  · exact indexFirstQuarter_renamed name _ _
  · exact indexMoves_renamed name _ _
  · exact indexCombinations_renamed name _ _
  · exact indexLastQuarter_renamed name _ _

end

/-- The page of IX has no lead bytes and no Intel spellings, and a name for each operand that is
    written by one. -/
theorem index_cases (o : Byte) : index "ix" o = .vacant ∨
    ∃ e, index "ix" o = .instruction e ∧ e.intel = none ∧
      (e.dst.isNamed = true ↔ e.zilog.dst ≠ "") ∧ (e.src.isNamed = true ↔ e.zilog.src ≠ "") := by
  have checked : ∀ o, index "ix" o = .vacant ∨ (index "ix" o).any (fun e => e.intel = none ∧
      (e.dst.isNamed = true ↔ e.zilog.dst ≠ "") ∧ (e.src.isNamed = true ↔ e.zilog.src ≠ "")) = true := by
    decide +kernel
  refine (checked o).imp_right fun h => ?_
  obtain ⟨e, he, hregular⟩ := Slot.of_any h
  exact ⟨e, he, of_decide_eq_true hregular⟩

/-! ## Text -/

/-- Of an operand with the text `s` on the page of IX, the text where IX is called `name`: the
    same with the name in the place of IX's, or none at all, if the name is empty. -/
def Retold (name operand s t : String) : Prop :=
  if operand = "ix" then
    ∃ before behind, s = before ++ "ix" ++ behind ∧ t = if name.isEmpty then "" else before ++ name ++ behind
  else t = s

section
variable (f : Frame) (m : Memory) {kind : OperandKind} {operand : String}

/-- What stands around a name hangs on the kind of the operand and on its bytes. -/
theorem shown_of_isNamed (h : kind.isNamed = true) :
    ∃ before behind, ∀ name, shown f m name kind = if name.isEmpty then "" else before ++ name ++ behind := by
  have bare : ∀ name : String, name = if name.isEmpty then "" else "" ++ name ++ "" := by
    intro name
    split
    · next hn => exact String.isEmpty_iff.mp hn
    · rw [String.empty_append, String.append_empty]
  cases kind with
  | register | condition => exact ⟨"", "", bare⟩
  | registerIndirect =>
    cases hd : f.dialect with
    | z80 => exact ⟨"(", ")", fun name => by rw [shown, hd]; rfl⟩
    | i8080 =>
      refine ⟨"", "", fun name => ?_⟩
      rw [shown, hd, Disassembly.memoryName, String.empty_append, String.append_empty]
  | indexed =>
    refine ⟨"(", Disassembly.signed (m.get f.operands) ++ ")", fun name => ?_⟩
    rw [shown, String.append_assoc]
  | none | immediate | immediateExtended | indirect | extended | displacement => cases h

theorem shown_renamed (h : kind.isNamed = true ↔ operand ≠ "") (name : String) :
    Retold name operand (shown f m operand kind) (shown f m (renamed name operand) kind) := by
  by_cases hx : operand = "ix"
  · subst hx
    obtain ⟨before, behind, htext⟩ := shown_of_isNamed f m (h.mpr (by decide))
    rw [Retold, renamed, if_pos rfl, if_pos rfl]
    exact ⟨before, behind, htext "ix", htext name⟩
  · rw [Retold, renamed, if_neg hx, if_neg hx]

theorem shown_eq_empty_iff (name : String) :
    shown f m name kind = "" ↔ kind = .none ∨ kind.isNamed = true ∧ name = "" := by
  cases hk : kind.isNamed with
  | true =>
    obtain ⟨before, behind, htext⟩ := shown_of_isNamed f m hk
    have hkind : kind ≠ .none := by
      rintro rfl
      cases hk
    rw [htext]
    by_cases hn : name = "" <;> simp [hkind, hn]
  | false =>
    cases kind with
    | none => simp [shown]
    | immediate | immediateExtended | indirect | extended | displacement => simp [shown]
    | register | condition | registerIndirect | indexed => cases hk

/-- An empty name hides what it names, and no name hides anything else. -/
theorem shown_renamed_eq_empty_iff (h : kind.isNamed = true ↔ operand ≠ "") (name : String) :
    shown f m (renamed name operand) kind = "" ↔ kind = .none ∨ name = "" ∧ operand = "ix" := by
  rw [shown_eq_empty_iff, h, renamed]
  by_cases hx : operand = "ix"
  · simp [hx]
  · simp [hx]

end

/-- The page of an index register has its name for a parameter, and nothing else on the page or
    in the text of an instruction hangs on it. -/
theorem index_parametric (name : String) (o : Byte) :
    index name o = .vacant ∧ index "ix" o = .vacant ∨
      ∃ d e, index name o = .instruction d ∧ index "ix" o = .instruction e ∧
        d.zilog.mnemonic = e.zilog.mnemonic ∧ d.zilog.dst = renamed name e.zilog.dst ∧
        d.zilog.src = renamed name e.zilog.src ∧ d.intel = none ∧ d.dst = e.dst ∧ d.src = e.src ∧
        d.length = e.length ∧ d.cycles = e.cycles ∧ d.cyclesSkipped = e.cyclesSkipped ∧ d.action = e.action ∧
        ∀ (p : Page) (a : Word) (b : Flat),
          let s := (ofInstruction .z80 a ⟨e, p⟩ b).1
          let t := (ofInstruction .z80 a ⟨d, p⟩ b).1
          Retold name e.zilog.dst s.dst t.dst ∧ Retold name e.zilog.src s.src t.src ∧
            (t.dst = "" ↔ e.dst = .none ∨ name = "" ∧ e.zilog.dst = "ix") ∧
            (t.src = "" ↔ e.src = .none ∨ name = "" ∧ e.zilog.src = "ix") := by
  rcases index_cases o with hvacant | ⟨e, he, hintel, hdst, hsrc⟩
  · exact .inl ⟨by rw [index_renamed, hvacant]; rfl, hvacant⟩
  · refine .inr ⟨e.renamed name, e, by rw [index_renamed, he, Slot.renamed], he, rfl, rfl, rfl, hintel, rfl, rfl, rfl,
      rfl, rfl, rfl, fun p a b => ?_⟩
    have hs := ofInstruction_flat (d := .z80) (a := a) (i := ⟨e, p⟩) rfl b
    have ht := ofInstruction_flat (d := .z80) (a := a) (i := ⟨e.renamed name, p⟩) rfl b
    intro s t
    simp only [s, t, hs, ht]
    exact ⟨shown_renamed _ _ hdst name, shown_renamed _ _ hsrc name, shown_renamed_eq_empty_iff _ _ hdst name,
      shown_renamed_eq_empty_iff _ _ hsrc name⟩

end Micro80
