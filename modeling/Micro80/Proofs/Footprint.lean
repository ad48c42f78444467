/-
  Micro80.Proofs.Footprint — what the disassembler reads. The kinds of the operands say
  which bytes their texts are made of (`operandText_observed`), and with the opcode they
  are the whole instruction (`ownBytes_of_decode`).

  Proved, for either dialect, every memory and every address:
  - `read_footprint`: a line is made from the bytes of its instruction, each read once and
    in order, or from the bytes that show that there is none; nothing is written and no
    port is used. Other memory that agrees on these bytes gives the same line.
-/

import Micro80.Proofs.Traffic
import Micro80.Proofs.Unambiguous

namespace Micro80

open Bus (Flat Recorded Access)
open Text (Hex.byte Hex.word)

theorem appendList_assoc {α : Type} (l : Array α) (xs ys : List α) : l ++ xs ++ ys = l ++ (xs ++ ys) := by
  apply Array.toList_inj.mp
  simp only [Array.toList_appendList, List.append_assoc]

namespace Disassembly

/-! ## Operands -/

theorem operandByte_observed (f : Frame) (b : Flat) (l : Array Access) :
    operandByte f 0 (⟨b, l⟩ : Recorded Flat) =
      (b.memory.get f.operands, ⟨b, l ++ [b.memory.noted f.operands]⟩) :=
  congrArg (fun a => (b.memory.get a, (⟨b, l ++ [b.memory.noted a]⟩ : Recorded Flat))) (BitVec.add_zero f.operands)

theorem operandWord_observed (f : Frame) (b : Flat) (l : Array Access) :
    operandWord f (⟨b, l⟩ : Recorded Flat) = (b.memory.getWord f.operands,
      ⟨b, l ++ [b.memory.noted f.operands, b.memory.noted (f.operands + 1)]⟩) :=
  congrArg (fun a => (Word.ofBytes (b.memory.get (f.operands + 1)) (b.memory.get a),
    (⟨b, l ++ [b.memory.noted a, b.memory.noted (f.operands + 1)]⟩ : Recorded Flat))) (BitVec.add_zero f.operands)

section
variable {f : Frame} {name : String} {kind : OperandKind} (hn : kind = .indexed → name.isEmpty = false)
include hn

/-- Of the operand bytes those of the kind are read. -/
theorem operandText_observed (b : Flat) (l : Array Access) :
    operandText f kind name (⟨b, l⟩ : Recorded Flat) = (shown f b.memory name kind,
      ⟨b, l ++ ((kind.offsets f.displaced).map fun k => f.operands + BitVec.ofNat 16 k).map b.memory.noted⟩) := by
  have hzero := f.operands.add_ofNat_zero
  cases kind with
  | none => rfl
  | register | condition =>
    by_cases he : name.isEmpty = true
    · rw [String.isEmpty_iff.mp he]
      rfl
    · exact congrFun (if_neg he) _
  | registerIndirect =>
    by_cases he : name.isEmpty = true
    · rw [shown, if_pos he]
      exact congrFun (if_pos he) _
    · rw [shown, if_neg he]
      exact congrFun (if_neg he) _
  | immediate =>
    obtain ⟨dialect, operands, next, displaced⟩ := f
    cases displaced <;> rfl
  | indexed =>
    have he : ¬name.isEmpty = true := Bool.eq_false_iff.mp (hn rfl)
    have h : operandText f .indexed name (⟨b, l⟩ : Recorded Flat) =
        ("(" ++ name ++ signed (operandByte f 0 (⟨b, l⟩ : Recorded Flat)).1 ++ ")", (operandByte f 0 ⟨b, l⟩).2) :=
      congrFun (if_neg he) _
    rw [shown, if_neg he, h, operandByte_observed]
    simp only [OperandKind.offsets, List.map_cons, List.map_nil, hzero]
  | indirect =>
    have h : operandText f .indirect name (⟨b, l⟩ : Recorded Flat) =
        ("($" ++ Hex.byte (operandByte f 0 (⟨b, l⟩ : Recorded Flat)).1 ++ ")", (operandByte f 0 ⟨b, l⟩).2) := rfl
    rw [shown, h, operandByte_observed]
    simp only [OperandKind.offsets, List.map_cons, List.map_nil, hzero]
  | displacement =>
    have h : operandText f .displacement name (⟨b, l⟩ : Recorded Flat) =
        ("$" ++ Hex.word (f.next.displace (operandByte f 0 (⟨b, l⟩ : Recorded Flat)).1), (operandByte f 0 ⟨b, l⟩).2) :=
      rfl
    rw [shown, h, operandByte_observed]
    simp only [OperandKind.offsets, List.map_cons, List.map_nil, hzero]
  | immediateExtended =>
    have h : operandText f .immediateExtended name (⟨b, l⟩ : Recorded Flat) =
        ("$" ++ Hex.word (operandWord f (⟨b, l⟩ : Recorded Flat)).1, (operandWord f ⟨b, l⟩).2) := rfl
    rw [shown, h, operandWord_observed]
    simp only [OperandKind.offsets, List.map_cons, List.map_nil, hzero]
    rfl
  | extended =>
    have h : operandText f .extended name (⟨b, l⟩ : Recorded Flat) =
        ("($" ++ Hex.word (operandWord f (⟨b, l⟩ : Recorded Flat)).1 ++ ")", (operandWord f ⟨b, l⟩).2) := rfl
    rw [shown, h, operandWord_observed]
    simp only [OperandKind.offsets, List.map_cons, List.map_nil, hzero]
    rfl

/-- An operand's text is the same where its bytes are. -/
theorem shown_congr {m m' : Memory} (hname : IsPlain name)
    (h : ∀ k ∈ kind.offsets f.displaced,
      m.get (f.operands + BitVec.ofNat 16 k) = m'.get (f.operands + BitVec.ofNat 16 k)) :
    shown f m name kind = shown f m' name kind :=
  ((prints_shown f m hname kind).eq_iff (prints_shown f m' hname kind)).mpr ((digits_eq_iff hn).mpr h)

end

/-! ## Instructions -/

section
variable {d : Dialect} {a : Word} {b : Flat} {i : Instruction} (h : (decode d a b).1 = .ok i)
include h

/-- The opcode bytes and the operand bytes are the instruction. -/
theorem ownBytes_of_decode :
    b.memory.opcodeBytes d a ++
        i.descriptor.offsets.map (fun k => a + BitVec.ofNat 16 i.page.width + BitVec.ofNat 16 k) =
      (List.range i.descriptor.length).map fun k => a + BitVec.ofNat 16 k := by
  obtain ⟨hwidth, hoffsets⟩ := offsets_of_slot (slot_of_decode h)
  have hlength : i.descriptor.length = i.page.width + (i.descriptor.length - i.page.width) := by omega
  rw [opcodeBytes_of_decode h, hoffsets, hlength, List.range_add, List.map_append, List.map_map, ← hlength]
  simp only [Function.comp_def, BitVec.ofNat_add, BitVec.add_assoc]

theorem read_observed_of_decode (l : Array Access) :
    read d a (⟨b, l⟩ : Recorded Flat) = ((read d a b).1,
      ⟨b, l ++ ((List.range i.descriptor.length).map fun k => a + BitVec.ofNat 16 k).map b.memory.noted⟩) := by
  obtain ⟨s, hs⟩ := spelling_of_decode h
  obtain ⟨hdst, hsrc⟩ := isEmpty_of_indexed (slot_of_decode h) hs
  have ho := decode_observed d a b l
  rw [h] at ho
  have hr : read d a (⟨b, l⟩ : Recorded Flat) =
      ofInstruction d a i (⟨b, l ++ (b.memory.opcodeBytes d a).map b.memory.noted⟩ : Recorded Flat) := by
    unfold read
    simp only [bind, StateT.bind, ho]
  rw [hr, ofInstruction_of_spelling hs, read_of_decode h hs, ← ownBytes_of_decode h]
  simp only [bind, StateT.bind, operandText_observed hdst, operandText_observed hsrc, Descriptor.offsets,
    List.map_append, appendList_assoc, List.append_assoc]
  rfl

end

theorem read_observed_of_decode_error {d : Dialect} {a : Word} {b : Flat} {opcode : Byte}
    (h : (decode d a b).1 = .error opcode) (l : Array Access) :
    read d a (⟨b, l⟩ : Recorded Flat) = (invalid, ⟨b, l ++ (b.memory.opcodeBytes d a).map b.memory.noted⟩) := by
  have ho := decode_observed d a b l
  rw [h] at ho
  unfold read
  simp only [bind, StateT.bind, ho]
  rfl

/-- The bytes that a line at `a` is made from. -/
def footprint (d : Dialect) (a : Word) (b : Flat) : List Word :=
  if (read d a b).1 = invalid then b.memory.opcodeBytes d a
  else (List.range (read d a b).1.length).map fun k => a + BitVec.ofNat 16 k

section
variable {d : Dialect} {a : Word} {b : Flat}

theorem footprint_of_decode {i : Instruction} (h : (decode d a b).1 = .ok i) :
    footprint d a b = (List.range i.descriptor.length).map fun k => a + BitVec.ofNat 16 k := by
  obtain ⟨s, hs⟩ := spelling_of_decode h
  have hvalid : (read d a b).1 ≠ invalid := by
    rw [read_of_decode h hs]
    intro he
    exact mnemonic_ne_invalid (slot_of_decode h) hs (congrArg mnemonic he)
  rw [footprint, if_neg hvalid, read_of_decode h hs]

theorem footprint_of_decode_error {opcode : Byte} (h : (decode d a b).1 = .error opcode) :
    footprint d a b = b.memory.opcodeBytes d a :=
  if_pos (read_of_decode_error h)

/-- The bytes of the opcode are always among them. -/
theorem mem_footprint {x : Word} (h : x ∈ b.memory.opcodeBytes d a) : x ∈ footprint d a b := by
  cases hd : (decode d a b).1 with
  | error opcode =>
    rw [footprint_of_decode_error hd]
    exact h
  | ok i =>
    rw [footprint_of_decode hd, ← ownBytes_of_decode hd]
    exact List.mem_append_left _ h

/-- What decodes is settled by them. -/
theorem decode_eq_of_agree {b' : Flat} (h : ∀ x ∈ footprint d a b, b'.memory.get x = b.memory.get x) :
    (decode d a b').1 = (decode d a b).1 := by
  have hopcode : ∀ x ∈ b.memory.opcodeBytes d a, b'.memory.get x = b.memory.get x := fun x hx => h x (mem_footprint hx)
  unfold Memory.opcodeBytes at hopcode
  apply decode_congr
  · apply hopcode
    split <;> exact List.mem_cons_self ..
  · intro hl
    rw [if_pos hl] at hopcode
    exact hopcode _ (List.mem_cons_of_mem _ (List.mem_cons_self ..))

theorem read_eq_of_agree {b' : Flat} (h : ∀ x ∈ footprint d a b, b'.memory.get x = b.memory.get x) :
    (read d a b').1 = (read d a b).1 := by
  have hdecode := decode_eq_of_agree h
  cases hd : (decode d a b).1 with
  | error opcode => rw [read_of_decode_error hd, read_of_decode_error (hdecode.trans hd)]
  | ok i =>
    obtain ⟨s, hs⟩ := spelling_of_decode hd
    obtain ⟨hdst, hsrc⟩ := isEmpty_of_indexed (slot_of_decode hd) hs
    obtain ⟨-, hd', hr'⟩ := isPlain_of_slot (slot_of_decode hd) hs
    have hbytes : ∀ k ∈ i.descriptor.offsets, b'.memory.get ((i.site a).operands + BitVec.ofNat 16 k) =
        b.memory.get ((i.site a).operands + BitVec.ofNat 16 k) := by
      intro k hk
      apply h
      rw [footprint_of_decode hd, ← ownBytes_of_decode hd]
      exact List.mem_append_right _ (List.mem_map_of_mem hk)
    obtain ⟨hb, hb'⟩ := List.forall_mem_append.mp hbytes
    rw [read_of_decode hd hs, read_of_decode (hdecode.trans hd) hs,
      shown_congr (f := frame d (i.site a) i.descriptor.form) hdst hd' hb,
      shown_congr (f := frame d (i.site a) i.descriptor.form) hsrc hr' hb']

end

/-- A line hangs on the bytes that are read for it, and on nothing else. -/
theorem read_footprint (d : Dialect) (a : Word) (b : Flat) (l : Array Access) :
    (match (lookup d a b).1 with
      | some e => (read d a b).1.mnemonic ≠ invalid.mnemonic ∧ (read d a b).1.length = e.length ∧
        footprint d a b = (List.range e.length).map fun k => a + BitVec.ofNat 16 k
      | none => (read d a b).1 = invalid ∧
        footprint d a b = if d = .z80 ∧ b.memory.get a ∈ leadBytes then [a, a + 1] else [a]) ∧
      read d a (⟨b, l⟩ : Recorded Flat) = ((read d a b).1, ⟨b, l ++ (footprint d a b).map b.memory.noted⟩) ∧
      ∀ b' : Flat, (∀ x ∈ footprint d a b, b'.memory.get x = b.memory.get x) → (read d a b').1 = (read d a b).1 := by
  have hlookup : (lookup d a b).1 = (decode d a b).1.toOption.map Instruction.descriptor := rfl
  rw [hlookup]
  cases hd : (decode d a b).1 with
  | error opcode =>
    refine ⟨⟨read_of_decode_error hd, footprint_of_decode_error hd⟩, ?_, fun b' => read_eq_of_agree⟩
    rw [read_observed_of_decode_error hd, footprint_of_decode_error hd, read_of_decode_error hd]
  | ok i =>
    obtain ⟨s, hs⟩ := spelling_of_decode hd
    refine ⟨⟨?_, ?_, footprint_of_decode hd⟩, ?_, fun b' => read_eq_of_agree⟩
    · rw [read_of_decode hd hs]
      exact mnemonic_ne_invalid (slot_of_decode hd) hs
    · rw [read_of_decode hd hs]
    · rw [read_observed_of_decode hd, footprint_of_decode hd]

/-- An instruction around the end of memory has the same line whatever stands behind it. -/
theorem read_footprint_around :
    let b : Flat := { memory := Memory.zero.load 0xFFFE [0xDD, 0x36, 0xFF, 0x2A] }
    let b' : Flat := b.withMemory (b.memory.set 2 7)
    footprint .z80 0xFFFE b = [0xFFFE, 0xFFFF, 0, 1] ∧ (read .z80 0xFFFE b').1 = (read .z80 0xFFFE b).1 := by
  intro b b'
  have h₀ : b.memory.get 0xFFFE = 0xDD := by simp [b, Memory.load, Memory.get_set]
  have h₁ : b.memory.get (0xFFFE + 1) = 0x36 := by simp [b, Memory.load, Memory.get_set]
  have hd : (decode .z80 0xFFFE b).1 =
      .ok ⟨.zilogOnly "ld" (.indexed "ix") .immediate 4 19 (.loadImmediate .cell), .dd⟩ :=
    decode_of_lead (by rw [h₀]; decide +kernel) (by rw [h₁]; decide +kernel)
  have hf : footprint .z80 0xFFFE b = [0xFFFE, 0xFFFF, 0, 1] := by
    rw [footprint_of_decode hd]
    decide
  refine ⟨hf, (read_footprint .z80 0xFFFE b #[]).2.2 b' ?_⟩
  intro x hx
  rw [hf] at hx
  have hne : 2 ≠ x := by
    rintro rfl
    exact absurd hx (by decide)
  exact b.memory.get_set_of_ne 7 hne

end Disassembly

end Micro80
