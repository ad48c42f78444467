/-
  Micro80.Proofs.Unambiguous — what a line of disassembly says of the bytes behind it. The
  line of an instruction prints the pattern of its description, the digits of its
  operands in the holes (`prints_text`), and these are the operand bytes, which are all
  that there is behind the opcode (`offsets_of_slot`). The patterns of the four pages
  are told apart by computation (`rows_apart`), but for two instructions that are
  encoded twice (`synonyms`).

  Proved, for every address and any two memories with an instruction there:
  - `text_eq_iff`: the lines are equal just when the bytes are, or are two encodings of
    one instruction.
-/

import Micro80.Proofs.Digits

namespace Micro80

open Bus (Flat)
open Pattern (Prints)
open Text (Hex.word)

/-! ## Instructions -/

namespace Descriptor

def pattern (d : Descriptor) (dialect : Dialect) (s : Spelling) : Pattern :=
  (Pattern.text s.mnemonic).padded 6 ++
    (Pattern.joined (d.dst.pattern dialect s.dst) (d.src.pattern dialect s.src)).padded 4

def offsets (d : Descriptor) : List Nat := d.dst.offsets d.form.isDisplaced ++ d.src.offsets d.form.isDisplaced

/-- What the lines of a page rely on: plain names, index registers that are named, and nothing
    behind an opcode but operand bytes. -/
def IsRegular (p : Page) (d : Descriptor) : Prop :=
  (∀ s ∈ d.spellings, (∀ n ∈ [s.mnemonic, s.dst, s.src], ∀ x ∈ columns n, x < 128) ∧
    (d.dst = .indexed → s.dst.isEmpty = false) ∧ (d.src = .indexed → s.src.isEmpty = false)) ∧
  p.width ≤ d.length ∧ d.offsets = List.range (d.length - p.width)

instance (p : Page) (d : Descriptor) : Decidable (d.IsRegular p) := inferInstanceAs (Decidable (_ ∧ _))

end Descriptor

section
variable {p : Page} {opcode : Byte} {d : Descriptor}

theorem isRegular_of_slot (h : p.slot opcode = .instruction d) : d.IsRegular p := by
  have checked : ∀ o, (p.slot o).all (fun d => d.IsRegular p) = true := by
    cases p <;> decide +kernel
  exact of_decide_eq_true (Slot.of_all (checked opcode) h)

theorem isPlain_of_slot (h : p.slot opcode = .instruction d) {dialect : Dialect} {s : Spelling}
    (hs : d.spelling? dialect = some s) : IsPlain s.mnemonic ∧ IsPlain s.dst ∧ IsPlain s.src := by
  obtain ⟨hascii, -⟩ := (isRegular_of_slot h).1 s (Descriptor.mem_spellings hs)
  simp only [List.forall_mem_cons] at hascii
  obtain ⟨hm, hd, hsrc, -⟩ := hascii
  exact ⟨isPlain_of_ascii hm, isPlain_of_ascii hd, isPlain_of_ascii hsrc⟩

/-- An index register is always named. -/
theorem isEmpty_of_indexed (h : p.slot opcode = .instruction d) {dialect : Dialect} {s : Spelling}
    (hs : d.spelling? dialect = some s) :
    (d.dst = .indexed → s.dst.isEmpty = false) ∧ (d.src = .indexed → s.src.isEmpty = false) :=
  ((isRegular_of_slot h).1 s (Descriptor.mem_spellings hs)).2

/-- Behind the opcode an instruction is its operand bytes and nothing else. -/
theorem offsets_of_slot (h : p.slot opcode = .instruction d) :
    p.width ≤ d.length ∧ d.offsets = List.range (d.length - p.width) :=
  (isRegular_of_slot h).2

end

namespace Disassembly

section
variable {d : Dialect} {a : Word} {b : Flat} {i : Instruction}

def numbers (d : Dialect) (a : Word) (b : Flat) (i : Instruction) (s : Spelling) : String :=
  digits (frame d (i.site a) i.descriptor.form) b.memory s.dst i.descriptor.dst ++
    digits (frame d (i.site a) i.descriptor.form) b.memory s.src i.descriptor.src

/-- A line prints the pattern of its instruction. -/
theorem prints_text {s : Spelling} (h : (decode d a b).1 = .ok i) (hs : i.descriptor.spelling? d = some s) :
    Prints (i.descriptor.pattern d s) (numbers d a b i s) (read d a b).1.text := by
  obtain ⟨hm, hd, hr⟩ := isPlain_of_slot (slot_of_decode h) hs
  have hdst := prints_shown (frame d (i.site a) i.descriptor.form) b.memory hd i.descriptor.dst
  have hsrc := prints_shown (frame d (i.site a) i.descriptor.form) b.memory hr i.descriptor.src
  have hmnemonic : (read d a b).1.mnemonic = s.mnemonic := by rw [read_of_decode h hs]
  have hoperands : Prints (Pattern.joined (i.descriptor.dst.pattern d s.dst) (i.descriptor.src.pattern d s.src))
      (numbers d a b i s) (read d a b).1.operands := by
    rw [read_of_decode h hs]
    exact hdst.joined hsrc
  have htext := ((Prints.fixed hm).padded 6).append (hoperands.padded 4)
  rw [String.empty_append] at htext
  rw [text, hmnemonic]
  exact htext

/-- The numbers of one instruction differ in its operand bytes. -/
theorem numbers_eq_iff {b' : Flat} {s : Spelling} (h : (decode d a b).1 = .ok i)
    (hs : i.descriptor.spelling? d = some s) :
    numbers d a b i s = numbers d a b' i s ↔
      ∀ k ∈ i.descriptor.offsets, b.memory.get (a + BitVec.ofNat 16 i.page.width + BitVec.ofNat 16 k) =
        b'.memory.get (a + BitVec.ofNat 16 i.page.width + BitVec.ofNat 16 k) := by
  obtain ⟨hdst, hsrc⟩ := isEmpty_of_indexed (slot_of_decode h) hs
  rw [Descriptor.offsets, List.forall_mem_append]
  constructor
  · intro hn
    obtain ⟨hd, hr⟩ := append_inj hn (length_digits ..)
    exact ⟨(digits_eq_iff hdst).mp hd, (digits_eq_iff hsrc).mp hr⟩
  · rintro ⟨hd, hr⟩
    exact congrArg₂ String.append ((digits_eq_iff hdst).mpr hd) ((digits_eq_iff hsrc).mpr hr)

/-- Lines of one instruction differ in its operand bytes. -/
theorem text_eq_iff_of_same {b' : Flat} (h : (decode d a b).1 = .ok i) (h' : (decode d a b').1 = .ok i) :
    (read d a b).1.text = (read d a b').1.text ↔
      ∀ k ∈ i.descriptor.offsets, b.memory.get (a + BitVec.ofNat 16 i.page.width + BitVec.ofNat 16 k) =
        b'.memory.get (a + BitVec.ofNat 16 i.page.width + BitVec.ofNat 16 k) := by
  obtain ⟨s, hs⟩ := spelling_of_decode h
  rw [(prints_text h hs).eq_iff (prints_text h' hs), numbers_eq_iff h hs]

end

end Disassembly

/-! ## Bytes -/

/-- The opcode of an instruction of page `p` at `a`: the byte that its page is looked up at. -/
def Memory.opcode (m : Memory) (a : Word) (p : Page) : Byte := m.get (a + BitVec.ofNat 16 (p.width - 1))

theorem Page.width_pos (p : Page) : 0 < p.width := by
  cases p <;> decide

def Page.leadByte? : Page → Option Byte
  | .base => none | .dd => some 0xDD | .ed => some 0xED | .fd => some 0xFD

/-- A page has one lead byte. -/
theorem Page.leadByte?_of_slot {p : Page} {o : Byte} (h : Page.base.slot o = .lead p) : p.leadByte? = some o := by
  have checked : ∀ o, Page.base.slot o = .lead p → p.leadByte? = some o := by
    cases p <;> decide +kernel
  exact checked o h

section
variable {d : Dialect} {a : Word} {b b' : Flat} {i : Instruction}

/-- Before the opcode there is at most the lead byte of the page. -/
theorem get_eq_of_lt_width (h : (decode d a b).1 = .ok i) (h' : (decode d a b').1 = .ok i) {k : Nat}
    (hk : k < i.page.width - 1) :
    b.memory.get (a + BitVec.ofNat 16 k) = b'.memory.get (a + BitVec.ofNat 16 k) := by
  have hbase : i.page ≠ .base := by
    intro hb
    rw [hb] at hk
    simp only [Page.width] at hk
    omega
  have hlead := (page_of_decode h).resolve_left hbase
  have hlead' := (page_of_decode h').resolve_left hbase
  have hzero : k = 0 := by
    have hwide := Page.width_of_lead hlead
    omega
  rw [hzero, a.add_ofNat_zero]
  have hbytes := Page.leadByte?_of_slot hlead
  rw [Page.leadByte?_of_slot hlead'] at hbytes
  exact (Option.some.inj hbytes).symm

/-- The bytes of one instruction differ in its operand bytes. -/
theorem slice_eq_iff_of_same (h : (decode d a b).1 = .ok i) (h' : (decode d a b').1 = .ok i)
    (ho : b.memory.opcode a i.page = b'.memory.opcode a i.page) :
    b.memory.slice a i.descriptor.length = b'.memory.slice a i.descriptor.length ↔
      ∀ k ∈ i.descriptor.offsets, b.memory.get (a + BitVec.ofNat 16 i.page.width + BitVec.ofNat 16 k) =
        b'.memory.get (a + BitVec.ofNat 16 i.page.width + BitVec.ofNat 16 k) := by
  obtain ⟨hwidth, hoffsets⟩ := offsets_of_slot (slot_of_decode h)
  simp only [Memory.slice_eq_iff, hoffsets, List.mem_range, BitVec.add_assoc, ← BitVec.ofNat_add]
  constructor
  · intro hall k hk
    exact hall _ (by omega)
  · intro hall k hk
    rcases Nat.lt_trichotomy k (i.page.width - 1) with hlt | rfl | hgt
    · exact get_eq_of_lt_width h h' hlt
    · exact ho
    · have hk' := hall (k - i.page.width) (by omega)
      rwa [show i.page.width + (k - i.page.width) = k by omega] at hk'

/-- Nothing but its own bytes makes an instruction. -/
theorem decode_of_slice_eq (h : (decode d a b).1 = .ok i)
    (hs : b.memory.slice a i.descriptor.length = b'.memory.slice a i.descriptor.length) :
    (decode d a b').1 = .ok i := by
  have hbytes := Memory.slice_eq_iff.mp hs
  obtain ⟨hwidth, -⟩ := offsets_of_slot (slot_of_decode h)
  have hpos := i.page.width_pos
  have hfirst : b.memory.get a = b'.memory.get a := by
    have hzero := hbytes 0 (by omega)
    rwa [a.add_ofNat_zero] at hzero
  by_cases hl : d = .z80 ∧ b.memory.get a ∈ leadBytes
  · obtain ⟨rfl, hm⟩ := hl
    obtain ⟨p, hp⟩ := slot_of_mem_leadBytes hm
    have hp' : Page.base.slot (b'.memory.get a) = .lead p := hfirst ▸ hp
    rw [decode_lead hp] at h
    have hpage : i.page.width = 2 := by rw [(Slot.eq_of_decode h).2.1, Page.width_of_lead hp]
    have hsecond : b.memory.get (a + 1) = b'.memory.get (a + 1) := hbytes 1 (by omega)
    rw [decode_lead hp', ← hsecond]
    exact h
  · rw [decode_first hl] at h
    rw [decode_first (hfirst ▸ hl), ← hfirst]
    exact h

end

/-! ## Instructions that are encoded twice -/

/-- By an opcode of the base page, and by another one behind 0xED. -/
def synonyms : List (Byte × Byte) := [(0x22, 0x63), (0x2A, 0x6B)]

/-- Two encodings of one instruction, which moves HL to or from the memory at an operand word. -/
def Alternates (short long : List Byte) : Prop :=
  ∃ o ∈ synonyms, ∃ low high, short = [o.1, low, high] ∧ long = [0xED, o.2, low, high]

section
variable {o : Byte × Byte} {a : Word} {b b' : Flat}

theorem slots_of_synonyms (ho : o ∈ synonyms) :
    ∃ d d', Page.base.slot o.1 = .instruction d ∧ Page.ed.slot o.2 = .instruction d' ∧
      d.form = d'.form ∧ d.length = 3 ∧ d'.length = 4 ∧
      (d.kinds = [.extended, .register] ∨ d.kinds = [.register, .extended]) := by
  simp only [synonyms, List.mem_cons, List.not_mem_nil, or_false] at ho
  rcases ho with rfl | rfl
  · exact ⟨_, _, rfl, rfl, rfl, rfl, rfl, .inl rfl⟩
  · exact ⟨_, _, rfl, rfl, rfl, rfl, rfl, .inr rfl⟩

theorem Disassembly.numbers_of_absolute {d : Dialect} {i : Instruction} {s : Spelling}
    (hk : i.descriptor.kinds = [.extended, .register] ∨ i.descriptor.kinds = [.register, .extended]) :
    numbers d a b i s = Hex.word (b.memory.getWord (a + BitVec.ofNat 16 i.page.width)) := by
  simp only [Descriptor.kinds, List.cons.injEq, and_true] at hk
  unfold numbers
  rcases hk with ⟨hd, hs⟩ | ⟨hd, hs⟩
  · rw [hd, hs]
    exact String.append_empty
  · rw [hd, hs]
    exact String.empty_append

/-- The larger dialect spells instructions of one form alike. -/
theorem Descriptor.pattern_eq_of_form {d d' : Descriptor} (h : d.form = d'.form) :
    d.pattern .z80 d.zilog = d'.pattern .z80 d'.zilog := by
  simp only [form, Form.mk.injEq, Operand.mk.injEq] at h
  obtain ⟨hm, ⟨hd, hdst⟩, hs, hsrc⟩ := h
  rw [pattern, pattern, hm, hd, hdst, hs, hsrc]

theorem text_eq_iff_of_synonyms (ho : o ∈ synonyms) (hb : b.memory.get a = o.1) (hlead : b'.memory.get a = 0xED)
    (hb' : b'.memory.get (a + 1) = o.2) :
    (Disassembly.read .z80 a b).1.text = (Disassembly.read .z80 a b').1.text ↔
      b.memory.getWord (a + 1) = b'.memory.getWord (a + 2) := by
  obtain ⟨d, d', hd, hd', hform, -, -, hkinds⟩ := slots_of_synonyms ho
  have hkinds' : d'.kinds = [.extended, .register] ∨ d'.kinds = [.register, .extended] := by
    rwa [show d'.kinds = d.kinds from congrArg (fun f : Form => [f.dst.kind, f.src.kind]) hform.symm]
  have h : (decode .z80 a b).1 = .ok ⟨d, .base⟩ := decode_of_base (hb ▸ hd) rfl
  have h' : (decode .z80 a b').1 = .ok ⟨d', .ed⟩ := decode_of_lead (hlead ▸ rfl) (hb' ▸ hd')
  have hprints := Disassembly.prints_text h rfl
  have hprints' := Disassembly.prints_text h' rfl
  rw [Disassembly.numbers_of_absolute hkinds, Descriptor.pattern_eq_of_form hform] at hprints
  rw [Disassembly.numbers_of_absolute hkinds'] at hprints'
  rw [hprints.eq_iff hprints']
  exact ⟨Text.Hex.word_inj, congrArg Hex.word⟩

theorem alternates_slices_iff : Alternates (b.memory.slice a 3) (b'.memory.slice a 4) ↔
    (∃ o ∈ synonyms, b.memory.get a = o.1 ∧ b'.memory.get a = 0xED ∧ b'.memory.get (a + 1) = o.2) ∧
      b.memory.getWord (a + 1) = b'.memory.getWord (a + 2) := by
  have hnext : a + 1 + 1 = a + 2 := by bv_omega
  simp only [Memory.slice_succ, Memory.slice_zero, Memory.getWord_inj, hnext]
  constructor
  · rintro ⟨o, ho, low, high, hshort, hlong⟩
    simp only [List.cons.injEq, and_true] at hshort hlong
    obtain ⟨h₀, h₁, h₂⟩ := hshort
    obtain ⟨k₀, k₁, k₂, k₃⟩ := hlong
    exact ⟨⟨o, ho, h₀, k₀, k₁⟩, h₁.trans k₂.symm, h₂.trans k₃.symm⟩
  · rintro ⟨⟨o, ho, h₀, k₀, k₁⟩, hlow, hhigh⟩
    exact ⟨o, ho, _, _, by rw [h₀], by rw [k₀, k₁, hlow, hhigh]⟩

end

/-! ## Telling instructions apart -/

def areSynonyms (dialect : Dialect) (r s : Page × Byte) : Bool :=
  dialect = .z80 && r.1 = .base && s.1 = .ed && synonyms.contains (r.2, s.2)

def rows (dialect : Dialect) : List ((Page × Byte) × Pattern) :=
  [Page.base, .dd, .ed, .fd].flatMap fun p => (List.range 256).filterMap fun o => do
    let d ← (p.slot (BitVec.ofNat 8 o)).descriptor?
    let s ← d.spelling? dialect
    return ((p, BitVec.ofNat 8 o), d.pattern dialect s)

/-- No line has more than eighteen columns. -/
theorem rows_apart (dialect : Dialect) : Pattern.apart (areSynonyms dialect) 18 (rows dialect) = true := by
  cases dialect <;> decide +kernel

theorem mem_rows {p : Page} {opcode : Byte} {d : Descriptor} (h : p.slot opcode = .instruction d) {dialect : Dialect}
    {s : Spelling} (hs : d.spelling? dialect = some s) : ((p, opcode), d.pattern dialect s) ∈ rows dialect := by
  have hp : p ∈ [Page.base, .dd, .ed, .fd] := by cases p <;> decide
  refine List.mem_flatMap.mpr ⟨p, hp, List.mem_filterMap.mpr ⟨opcode.toNat, List.mem_range.mpr opcode.isLt, ?_⟩⟩
  have hopcode : BitVec.ofNat 8 opcode.toNat = opcode := by simp
  simp only [hopcode, h, Slot.descriptor?, hs, Option.bind_eq_bind, Option.bind_some]
  rfl

section
variable {d : Dialect} {a : Word} {b b' : Flat} {i i' : Instruction}

theorem alternates_of_areSynonyms (h : (decode d a b).1 = .ok i) (h' : (decode d a b').1 = .ok i')
    (hs : areSynonyms d (i.page, b.memory.opcode a i.page) (i'.page, b'.memory.opcode a i'.page) = true)
    (he : (Disassembly.read d a b).1.text = (Disassembly.read d a b').1.text) :
    d = .z80 ∧ Alternates (b.memory.slice a i.descriptor.length) (b'.memory.slice a i'.descriptor.length) := by
  obtain ⟨e, p⟩ := i
  obtain ⟨e', p'⟩ := i'
  simp only [areSynonyms, Bool.and_eq_true, decide_eq_true_eq, List.contains_iff_mem] at hs
  obtain ⟨⟨⟨rfl, rfl⟩, rfl⟩, ho⟩ := hs
  have hb : b.memory.opcode a .base = b.memory.get a := congrArg b.memory.get (BitVec.add_zero a)
  have hlead := Page.leadByte?_of_slot ((page_of_decode h').resolve_left (by simp))
  obtain ⟨d, d', hd, hd', -, hlength, hlength', -⟩ := slots_of_synonyms ho
  obtain rfl : d = e := Slot.instruction.inj (hd.symm.trans (slot_of_decode h))
  obtain rfl : d' = e' := Slot.instruction.inj (hd'.symm.trans (slot_of_decode h'))
  refine ⟨rfl, ?_⟩
  rw [hlength, hlength', alternates_slices_iff]
  refine ⟨⟨_, ho, hb.symm, (Option.some.inj hlead).symm, rfl⟩, ?_⟩
  exact (text_eq_iff_of_synonyms ho hb.symm (Option.some.inj hlead).symm rfl).mp he

theorem text_eq_of_alternates {n n' : Nat} (h : Alternates (b.memory.slice a n) (b'.memory.slice a n')) :
    (Disassembly.read .z80 a b).1.text = (Disassembly.read .z80 a b').1.text := by
  obtain ⟨rfl, rfl⟩ : n = 3 ∧ n' = 4 := by
    obtain ⟨o, -, low, high, hshort, hlong⟩ := h
    rw [← b.memory.length_slice a n, ← b'.memory.length_slice a n', hshort, hlong]
    exact ⟨rfl, rfl⟩
  obtain ⟨⟨o, ho, hb, hlead, hb'⟩, hword⟩ := alternates_slices_iff.mp h
  exact (text_eq_iff_of_synonyms ho hb hlead hb').mpr hword

/-- The lines of two instructions at one address are equal just when their bytes are, or when
    these are the two encodings of one transfer, which only the larger dialect has. -/
theorem text_eq_iff (h : (decode d a b).1 = .ok i) (h' : (decode d a b').1 = .ok i') :
    (Disassembly.read d a b).1.text = (Disassembly.read d a b').1.text ↔
      b.memory.slice a i.descriptor.length = b'.memory.slice a i'.descriptor.length ∨
      d = .z80 ∧
        (Alternates (b.memory.slice a i.descriptor.length) (b'.memory.slice a i'.descriptor.length) ∨
          Alternates (b'.memory.slice a i'.descriptor.length) (b.memory.slice a i.descriptor.length)) := by
  constructor
  · intro he
    obtain ⟨s, hs⟩ := spelling_of_decode h
    obtain ⟨s', hs'⟩ := spelling_of_decode h'
    have hp := Disassembly.prints_text h hs
    have hp' := Disassembly.prints_text h' hs'
    rw [← he] at hp'
    rcases Pattern.kin_of_apart (rows_apart d) (mem_rows (slot_of_decode h) hs) (mem_rows (slot_of_decode h') hs')
      hp.fits hp'.fits with hsame | hkin | hkin
    · obtain ⟨hpage, hopcode⟩ := Prod.mk.inj hsame
      have hslot := slot_of_decode h
      rw [hopcode, hpage, slot_of_decode h'] at hslot
      obtain rfl : i = i' := congrArg₂ Instruction.mk (Slot.instruction.inj hslot).symm hpage
      exact .inl ((slice_eq_iff_of_same h h' hopcode).mpr ((Disassembly.text_eq_iff_of_same h h').mp he))
    · obtain ⟨hd, halt⟩ := alternates_of_areSynonyms h h' hkin he
      exact .inr ⟨hd, .inl halt⟩
    · obtain ⟨hd, halt⟩ := alternates_of_areSynonyms h' h hkin he.symm
      exact .inr ⟨hd, .inr halt⟩
  · rintro (hs | ⟨rfl, halt | halt⟩)
    · have hlength : i.descriptor.length = i'.descriptor.length := by
        rw [← b.memory.length_slice a i.descriptor.length, hs, Memory.length_slice]
      rw [← hlength] at hs
      obtain rfl : i = i' := Except.ok.inj ((decode_of_slice_eq h hs).symm.trans h')
      have hopcode : b.memory.opcode a i.page = b'.memory.opcode a i.page := by
        obtain ⟨hwidth, -⟩ := offsets_of_slot (slot_of_decode h)
        have hpos := i.page.width_pos
        exact Memory.slice_eq_iff.mp hs _ (by omega)
      exact (Disassembly.text_eq_iff_of_same h h').mpr ((slice_eq_iff_of_same h h' hopcode).mp hs)
    · exact text_eq_of_alternates halt
    · exact (text_eq_of_alternates halt).symm

end

/-- `ld ($1234),hl` in three bytes and in four. -/
theorem text_eq_of_long_store :
    let b : Flat := { memory := Memory.zero.load 0 [0x22, 0x34, 0x12] }
    let b' : Flat := { memory := Memory.zero.load 0 [0xED, 0x63, 0x34, 0x12] }
    ∃ i i', (decode .z80 0 b).1 = .ok i ∧ (decode .z80 0 b').1 = .ok i' ∧
      b.memory.slice 0 i.descriptor.length ≠ b'.memory.slice 0 i'.descriptor.length ∧
      (Disassembly.read .z80 0 b).1.text = (Disassembly.read .z80 0 b').1.text := by
  intro b b'
  have hb : b.memory.get 0 = 0x22 := by simp [b, Memory.load, Memory.get_set]
  have hlead : b'.memory.get 0 = 0xED := by simp [b', Memory.load, Memory.get_set]
  have hb' : b'.memory.get (0 + 1) = 0x63 := by simp [b', Memory.load, Memory.get_set]
  obtain ⟨d, d', hd, hd', -, hlength, hlength', -⟩ := slots_of_synonyms (o := (0x22, 0x63)) (by decide)
  have h : (decode .z80 0 b).1 = .ok ⟨d, .base⟩ := decode_of_base (hb ▸ hd) rfl
  have h' : (decode .z80 0 b').1 = .ok ⟨d', .ed⟩ := decode_of_lead (hlead ▸ rfl) (hb' ▸ hd')
  have hword : b.memory.getWord (0 + 1) = b'.memory.getWord (0 + 2) := by
    simp [b, b', Memory.getWord, Memory.load, Memory.get_set]
  refine ⟨_, _, h, h', ?_, ?_⟩
  · intro hs
    have hne := congrArg List.length hs
    rw [Memory.length_slice, Memory.length_slice, hlength, hlength'] at hne
    omega
  · refine (text_eq_iff h h').mpr (.inr ⟨rfl, .inl ?_⟩)
    rw [hlength, hlength', alternates_slices_iff]
    exact ⟨⟨(0x22, 0x63), by decide, hb, hlead, hb'⟩, hword⟩

end Micro80
