/-
  Micro80.Proofs.Listing — instructions one behind another. An instruction written out is
  its opcode, behind the lead byte of its page if that has one, and the operand bytes that
  are left to its length (`Encoded`). Where these bytes stand the instruction decodes,
  whatever comes after them (`Encoded.decode_of_slice`), and its line is the one that it
  has alone (`Encoded.read_of_slice`).

  Proved, for either dialect, every address and every program that memory has room for:
  - `listing_program`: no instruction begins another, and a listing from the first byte
    goes from instruction to instruction, each with the line that it has alone.
-/

import Micro80.Proofs.Footprint

namespace Micro80

open Bus (Flat)

/-! ## Instructions written out -/

/-- An instruction that the dialect can spell, with its operand bytes. -/
structure Encoded (dialect : Dialect) where
  page : Page
  opcode : Byte
  descriptor : Descriptor
  slot : page.slot opcode = .instruction descriptor
  spelled : (descriptor.spelling? dialect).isSome = true
  operands : List Byte
  length_operands : operands.length = descriptor.length - page.width

theorem Page.slot_of_leadByte? {p : Page} {o : Byte} (h : p.leadByte? = some o) : Page.base.slot o = .lead p := by
  cases p with
  | base => cases h
  | dd | ed | fd => cases h; rfl

theorem Page.length_leadByte? (p : Page) : p.leadByte?.toList.length + 1 = p.width := by
  cases p <;> rfl

/-- What stands behind a lead byte is of the larger dialect alone. -/
theorem z80_of_slot {p : Page} {opcode : Byte} {d : Descriptor} (h : p.slot opcode = .instruction d)
    (hp : p ≠ .base) {dialect : Dialect} (hs : (d.spelling? dialect).isSome = true) : dialect = .z80 := by
  have checked : ∀ p : Page, p ≠ .base → ∀ o, (p.slot o).all (fun d => d.intel.isNone) = true := by
    intro p hp
    cases p with
    | base => exact absurd rfl hp
    | dd | ed | fd => decide +kernel
  cases dialect with
  | z80 => rfl
  | i8080 =>
    rw [Descriptor.spelling?, Option.isSome_iff_ne_none] at hs
    exact absurd (Option.isNone_iff_eq_none.mp (Slot.of_all (checked p hp opcode) h)) hs

theorem length_le_of_slot {p : Page} {opcode : Byte} {d : Descriptor} (h : p.slot opcode = .instruction d) :
    d.length ≤ 4 := by
  have checked : ∀ o, (p.slot o).all (fun d => d.length ≤ 4) = true := by
    cases p <;> decide +kernel
  exact of_decide_eq_true (Slot.of_all (checked opcode) h)

namespace Encoded

variable {d : Dialect}

def bytes (e : Encoded d) : List Byte := e.page.leadByte?.toList ++ e.opcode :: e.operands

theorem length_bytes (e : Encoded d) : e.bytes.length = e.descriptor.length := by
  have hlead := e.page.length_leadByte?
  have hoperands := e.length_operands
  obtain ⟨hwidth, -⟩ := offsets_of_slot e.slot
  rw [bytes, List.length_append, List.length_cons]
  omega

theorem length_bytes_le (e : Encoded d) : e.bytes.length ≤ 65536 := by
  have hlength := length_le_of_slot e.slot
  rw [e.length_bytes]
  omega

theorem slice_load (e : Encoded d) (a : Word) (b : Flat) :
    (b.load a e.bytes).memory.slice a e.bytes.length = e.bytes :=
  b.memory.slice_load a e.length_bytes_le

variable {a : Word} {b b' : Flat}

/-- Where its bytes stand the instruction decodes. -/
theorem decode_of_slice (e : Encoded d) (h : b.memory.slice a e.bytes.length = e.bytes) :
    (decode d a b).1 = .ok ⟨e.descriptor, e.page⟩ := by
  obtain ⟨hlead, hrest⟩ := Memory.slice_append h
  rw [List.length_cons, Memory.slice_succ] at hrest
  have hopcode := (List.cons.inj hrest).1
  cases hl : e.page.leadByte? with
  | none =>
    have hp : e.page = .base := by
      cases hp : e.page with
      | base => rfl
      | dd | ed | fd => rw [hp] at hl; cases hl
    have hslot := e.slot
    rw [hl, show a + BitVec.ofNat 16 (none : Option Byte).toList.length = a from BitVec.add_zero a] at hopcode
    rw [← hopcode, hp] at hslot
    rw [hp]
    exact decode_of_base hslot e.spelled
  | some o =>
    have hp : e.page ≠ .base := by
      intro hp
      rw [hp] at hl
      cases hl
    have hslot := e.slot
    rw [hl] at hopcode hlead
    rw [← hopcode] at hslot
    have hfirst : b.memory.get a = o := (List.cons.inj ((b.memory.slice_succ a 0).symm.trans hlead)).1
    cases z80_of_slot e.slot hp e.spelled
    exact decode_of_lead (hfirst ▸ Page.slot_of_leadByte? hl) hslot

/-- Its line is made from its bytes, and from nothing around them. -/
theorem read_of_slice (e : Encoded d) (h : b.memory.slice a e.bytes.length = e.bytes)
    (h' : b'.memory.slice a e.bytes.length = e.bytes) : (Disassembly.read d a b).1 = (Disassembly.read d a b').1 := by
  have hbytes := Memory.slice_eq_iff.mp (h.trans h'.symm)
  apply Disassembly.read_eq_of_agree
  intro x hx
  rw [Disassembly.footprint_of_decode (e.decode_of_slice h'), ← e.length_bytes] at hx
  obtain ⟨k, hk, rfl⟩ := List.mem_map.mp hx
  exact hbytes k (List.mem_range.mp hk)

def line (e : Encoded d) (a : Word) : Disassembly := (Disassembly.read d a (({} : Flat).load a e.bytes)).1

theorem read_eq_line (e : Encoded d) (h : b.memory.slice a e.bytes.length = e.bytes) :
    (Disassembly.read d a b).1 = e.line a :=
  e.read_of_slice h (e.slice_load a {})

theorem line_eq_read (e : Encoded d) (a : Word) (b : Flat) :
    e.line a = (Disassembly.read d a (b.load a e.bytes)).1 :=
  (e.read_eq_line (e.slice_load a b)).symm

theorem line_valid (e : Encoded d) (a : Word) :
    (e.line a).length = e.bytes.length ∧ (e.line a).mnemonic ≠ Disassembly.invalid.mnemonic := by
  have hd := e.decode_of_slice (e.slice_load a {})
  obtain ⟨s, hs⟩ := spelling_of_decode hd
  rw [line, Disassembly.read_of_decode hd hs, e.length_bytes]
  exact ⟨rfl, mnemonic_ne_invalid e.slot hs⟩

/-- No instruction begins another. -/
theorem bytes_eq_of_prefix {e e' : Encoded d} (h : e.bytes <+: e'.bytes) : e.bytes = e'.bytes := by
  obtain ⟨rest, hrest⟩ := h
  have hload' := e'.slice_load 0 {}
  have hload : (({} : Flat).load 0 e'.bytes).memory.slice 0 e.bytes.length = e.bytes := by
    rw [← hrest] at hload' ⊢
    exact (Memory.slice_append hload').1
  have hsame := Except.ok.inj ((e.decode_of_slice hload).symm.trans (e'.decode_of_slice hload'))
  have hlength : e.bytes.length = e'.bytes.length := by
    rw [e.length_bytes, e'.length_bytes]
    exact congrArg (fun i : Instruction => i.descriptor.length) hsame
  exact List.IsPrefix.eq_of_length ⟨rest, hrest⟩ hlength

end Encoded

/-! ## Programs -/

namespace Disassembly

variable {d : Dialect}

/-- The lines of a program, each with its address. -/
def lines (a : Word) : List (Encoded d) → List (Word × Disassembly)
  | [] => []
  | e :: program => (a, e.line a) :: lines (a + BitVec.ofNat 16 e.bytes.length) program

theorem length_lines (a : Word) (program : List (Encoded d)) : (lines a program).length = program.length := by
  induction program generalizing a with
  | nil => rfl
  | cons e program ih => rw [lines, List.length_cons, ih, List.length_cons]

/-- An instruction starts behind the bytes of those before it. -/
theorem getElem?_lines (a : Word) (program : List (Encoded d)) (i : Nat) :
    (lines a program)[i]? = program[i]?.map fun e =>
      let start := a + BitVec.ofNat 16 ((program.take i).flatMap Encoded.bytes).length
      (start, e.line start) := by
  induction program generalizing a i with
  | nil => rfl
  | cons e program ih =>
    cases i with
    | zero =>
      rw [lines, List.getElem?_cons_zero, List.getElem?_cons_zero]
      simp
    | succ i =>
      rw [lines, List.getElem?_cons_succ, List.getElem?_cons_succ, ih]
      simp only [List.take_succ_cons, List.flatMap_cons, List.length_append, BitVec.ofNat_add, BitVec.add_assoc]

theorem listing_succ (a : Word) (n : Nat) (b : Flat) :
    (listing d a (n + 1) b).1 =
      (a, (read d a b).1) :: (listing d (a + BitVec.ofNat 16 (read d a b).1.length) n b).1 := by
  obtain ⟨line, hline⟩ : ∃ line, read d a b = (line, b) := ⟨(read d a b).1, Prod.ext rfl (read_snd d a b)⟩
  simp only [listing, bind, StateT.bind, hline]
  rfl

/-- Where the bytes of a program stand, its lines are listed. -/
theorem listing_of_slice {b : Flat} {a : Word} {program : List (Encoded d)}
    (h : b.memory.slice a (program.flatMap Encoded.bytes).length = program.flatMap Encoded.bytes) :
    (listing d a program.length b).1 = lines a program := by
  induction program generalizing a with
  | nil => rfl
  | cons e program ih =>
    rw [List.flatMap_cons] at h
    obtain ⟨hfirst, hrest⟩ := Memory.slice_append h
    rw [List.length_cons, listing_succ, e.read_eq_line hfirst, (e.line_valid a).1, ih hrest, lines]

/-- The instructions of a dialect are a prefix code. A program that is loaded anywhere, around
    the end of memory too, is found again instruction by instruction from its first byte. -/
theorem listing_program (d : Dialect) (a : Word) (program : List (Encoded d)) (b : Flat)
    (h : (program.flatMap Encoded.bytes).length ≤ 65536) :
    (∀ e e' : Encoded d, e.bytes <+: e'.bytes → e.bytes = e'.bytes) ∧
      let found := (listing d a program.length (b.load a (program.flatMap Encoded.bytes))).1
      found.length = program.length ∧
      ∀ i e, program[i]? = some e →
        let start := a + BitVec.ofNat 16 ((program.take i).flatMap Encoded.bytes).length
        ∃ line, found[i]? = some (start, line) ∧ (∀ b' : Flat, line = (read d start (b'.load start e.bytes)).1) ∧
          line.length = e.bytes.length ∧ line.mnemonic ≠ invalid.mnemonic := by
  have hfound : (listing d a program.length (b.load a (program.flatMap Encoded.bytes))).1 = lines a program :=
    listing_of_slice (Memory.slice_load b.memory a h)
  refine ⟨fun e e' => Encoded.bytes_eq_of_prefix, ?_⟩
  intro found
  refine ⟨?_, ?_⟩
  · rw [show found = lines a program from hfound, length_lines]
  · intro i e he start
    obtain ⟨hlength, hvalid⟩ := e.line_valid start
    refine ⟨e.line start, ?_, e.line_eq_read start, hlength, hvalid⟩
    rw [show found = lines a program from hfound, getElem?_lines, he]
    rfl

/-- A store through IX at the end of memory, and the halt that is found behind it at its
    beginning. -/
theorem listing_program_around :
    let store : Encoded .z80 :=
      ⟨.dd, 0x36, .zilogOnly "ld" (.indexed "ix") .immediate 4 19 (.loadImmediate .cell), rfl, rfl, [0xFF, 0x2A], rfl⟩
    let halt : Encoded .z80 := ⟨.base, 0x76, haltDescriptor, rfl, rfl, [], rfl⟩
    let found := (listing .z80 0xFFFE 2 (({} : Flat).load 0xFFFE [0xDD, 0x36, 0xFF, 0x2A, 0x76])).1
    ([store, halt].flatMap Encoded.bytes).length ≤ 65536 ∧ found.length = 2 ∧
      (∃ line, found[0]? = some (0xFFFE, line) ∧ line.length = 4) ∧
      ∃ line, found[1]? = some (2, line) ∧ line.length = 1 ∧
        ∀ b : Flat, line = (read .z80 2 (b.load 2 [0x76])).1 := by
  intro store halt found
  have hfits : ([store, halt].flatMap Encoded.bytes).length ≤ 65536 := by decide
  obtain ⟨-, hlength, hlines⟩ := listing_program .z80 0xFFFE [store, halt] {} hfits
  obtain ⟨line, hfirst, -, hfour, -⟩ := hlines 0 store rfl
  obtain ⟨line', hsecond, halone, hone, -⟩ := hlines 1 halt rfl
  have hstart : (0xFFFE : Word) + BitVec.ofNat 16 (([store, halt].take 1).flatMap Encoded.bytes).length = 2 := by decide
  rw [hstart] at hsecond halone
  exact ⟨hfits, hlength, ⟨line, hfirst, hfour⟩, line', hsecond, hone, halone⟩

end Disassembly

end Micro80
