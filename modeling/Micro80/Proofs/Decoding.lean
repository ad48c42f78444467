/-
  Micro80.Proofs.Decoding — which bytes decode. In the larger dialect three bytes lead to
  another page, and the byte after them is looked up there; on any bus, what decodes is of
  the base page or stands behind the lead byte of its page (`decode_cases`). Where nothing
  decodes, the byte to blame is the last one that was read (`decode_error`). The halt is
  one byte of the base page (`action_eq_halt_iff`). A step finds no instruction, or
  performs the one that it finds (`step_cases`).
-/

import Micro80.Proofs.Flat
import Micro80.Proofs.Form

namespace Micro80

open Bus (Flat)

/-! ## Lead bytes -/

def leadBytes : List Byte := [0xDD, 0xED, 0xFD]

theorem slot_of_mem_leadBytes {first : Byte} (h : first ∈ leadBytes) : ∃ p, Page.base.slot first = .lead p := by
  simp only [leadBytes, List.mem_cons, List.not_mem_nil, or_false] at h
  rcases h with rfl | rfl | rfl
  · exact ⟨.dd, rfl⟩
  · exact ⟨.ed, rfl⟩
  · exact ⟨.fd, rfl⟩

theorem mem_leadBytes_of_slot {first : Byte} {p : Page} (h : Page.base.slot first = .lead p) : first ∈ leadBytes := by
  have checked : ∀ o, (Page.base.slot o).isLead = true → o ∈ leadBytes := by decide +kernel
  apply checked
  rw [h]
  rfl

/-! ## Any bus -/

section
variable {β : Type} [Bus β]

def firstByte (a : Word) (b : β) : Byte := (Bus.read b a).1

def secondByte (a : Word) (b : β) : Byte := (Bus.read (Bus.read b a).2 (a + 1)).1

/-- Behind a lead byte, in the larger dialect, the byte after it is looked up. -/
theorem decode_behind {a : Word} {b : β} {p : Page} (h : Page.base.slot (firstByte a b) = .lead p) :
    (decode .z80 a b).1 = (p.slot (secondByte a b)).decode p .z80 (secondByte a b) := by
  unfold decode
  rw [firstByte] at h
  simp only [h]
  rfl

/-- An instruction is what the base page holds at the first byte, or what the page that this
    leads to holds at the second. -/
theorem decode_cases {d : Dialect} {a : Word} {b : β} {i : Instruction} (h : (decode d a b).1 = .ok i) :
    (i.descriptor.spelling? d).isSome = true ∧
      (i.page = .base ∧ Page.base.slot (firstByte a b) = .instruction i.descriptor ∨
        d = .z80 ∧ Page.base.slot (firstByte a b) = .lead i.page ∧
          i.page.slot (secondByte a b) = .instruction i.descriptor) := by
  have hfirst : (Page.base.slot (firstByte a b)).decode .base d (firstByte a b) = .ok i →
      (i.descriptor.spelling? d).isSome = true ∧ i.page = .base ∧
        Page.base.slot (firstByte a b) = .instruction i.descriptor := by
    intro h
    obtain ⟨hs, hp, hd⟩ := Slot.eq_of_decode h
    exact ⟨hd, hp, hs⟩
  cases d with
  | i8080 =>
    obtain ⟨hd, hs⟩ := hfirst h
    exact ⟨hd, .inl hs⟩
  | z80 =>
    cases hl : Page.base.slot (Bus.read b a).1 with
    | lead p =>
      rw [decode_behind hl] at h
      obtain ⟨hs, rfl, hd⟩ := Slot.eq_of_decode h
      exact ⟨hd, .inr ⟨rfl, hl, hs⟩⟩
    | vacant | instruction e =>
      obtain ⟨hd, hs⟩ := hfirst (by
        unfold decode at h
        simp only [hl] at h
        rw [firstByte, hl]
        exact h)
      exact ⟨hd, .inl hs⟩

theorem exists_slot_of_decode {d : Dialect} {a : Word} {b : β} {i : Instruction} (h : (decode d a b).1 = .ok i) :
    ∃ opcode, i.page.slot opcode = .instruction i.descriptor := by
  rcases (decode_cases h).2 with ⟨hp, hs⟩ | ⟨-, -, hs⟩
  · exact ⟨_, hp ▸ hs⟩
  · exact ⟨_, hs⟩

/-- How many opcode bytes there are shows in the first. -/
theorem width_of_decode {d : Dialect} {a : Word} {b : β} {i : Instruction} (h : (decode d a b).1 = .ok i) :
    i.page.width = if firstByte a b ∈ leadBytes then 2 else 1 := by
  rcases (decode_cases h).2 with ⟨hp, hs⟩ | ⟨-, hl, -⟩
  · have hn : firstByte a b ∉ leadBytes := by
      intro hm
      obtain ⟨p, hp⟩ := slot_of_mem_leadBytes hm
      rw [hs] at hp
      cases hp
    rw [hp, if_neg hn]
    rfl
  · rw [if_pos (mem_leadBytes_of_slot hl), Page.width_of_lead hl]

theorem decode_of_second {a : Word} {b : β} {p : Page} {d : Descriptor}
    (hp : Page.base.slot (firstByte a b) = .lead p) (hd : p.slot (secondByte a b) = .instruction d) :
    (decode .z80 a b).1 = .ok ⟨d, p⟩ := by
  rw [decode_behind hp, hd]
  rfl

end

/-! ## Flat memory -/

/-- The byte to blame when nothing decodes at `a`: the first, or the one behind a lead byte. -/
def Memory.culprit (m : Memory) (d : Dialect) (a : Word) : Byte :=
  if d = .z80 ∧ m.get a ∈ leadBytes then m.get (a + 1) else m.get a

/-- The bytes that are read to see what decodes at `a`. -/
def Memory.opcodeBytes (m : Memory) (d : Dialect) (a : Word) : List Word :=
  if d = .z80 ∧ m.get a ∈ leadBytes then [a, a + 1] else [a]

theorem Slot.decode_error {slot : Slot} {p : Page} {d : Dialect} {opcode e : Byte}
    (h : slot.decode p d opcode = .error e) : e = opcode := by
  cases slot with
  | vacant => cases h; rfl
  | lead q => cases h; rfl
  | instruction descriptor =>
    simp only [Slot.decode] at h
    split at h
    · cases h
    · cases h; rfl

theorem decode_lead {a : Word} {b : Flat} {p : Page} (h : Page.base.slot (b.memory.get a) = .lead p) :
    (decode .z80 a b).1 = (p.slot (b.memory.get (a + 1))).decode p .z80 (b.memory.get (a + 1)) :=
  decode_behind h

/-- Where no lead byte counts, the first byte is looked up in the base page. -/
theorem decode_first {d : Dialect} {a : Word} {b : Flat} (h : ¬(d = .z80 ∧ b.memory.get a ∈ leadBytes)) :
    (decode d a b).1 = (Page.base.slot (b.memory.get a)).decode .base d (b.memory.get a) := by
  unfold decode
  simp only [show Bus.read b a = (b.memory.get a, b) from rfl]
  split
  · rename_i p hs
    exact absurd ⟨rfl, mem_leadBytes_of_slot hs⟩ h
  · rfl

/-- What decodes hangs on the opcode bytes alone. -/
theorem decode_congr {d : Dialect} {a a' : Word} {b b' : Flat} (hfirst : b'.memory.get a' = b.memory.get a)
    (hsecond : d = .z80 ∧ b.memory.get a ∈ leadBytes → b'.memory.get (a' + 1) = b.memory.get (a + 1)) :
    (decode d a' b').1 = (decode d a b).1 := by
  by_cases hl : d = .z80 ∧ b.memory.get a ∈ leadBytes
  · have hs := hsecond hl
    obtain ⟨rfl, hm⟩ := hl
    obtain ⟨p, hp⟩ := slot_of_mem_leadBytes hm
    rw [decode_lead hp, decode_lead (hfirst ▸ hp), hs]
  · rw [decode_first hl, decode_first (hfirst ▸ hl), hfirst]

theorem decode_error {d : Dialect} {a : Word} {b : Flat} {e : Byte} (h : (decode d a b).1 = .error e) :
    e = b.memory.culprit d a := by
  unfold Memory.culprit
  by_cases hl : d = .z80 ∧ b.memory.get a ∈ leadBytes
  · obtain ⟨rfl, hm⟩ := hl
    obtain ⟨p, hp⟩ := slot_of_mem_leadBytes hm
    rw [decode_lead hp] at h
    rw [if_pos ⟨rfl, hm⟩]
    exact Slot.decode_error h
  · rw [decode_first hl] at h
    rw [if_neg hl]
    exact Slot.decode_error h

/-- An instruction is of the base page, or stands behind the lead byte of its page. -/
theorem page_of_decode {d : Dialect} {a : Word} {b : Flat} {i : Instruction} (h : (decode d a b).1 = .ok i) :
    i.page = .base ∨ Page.base.slot (b.memory.get a) = .lead i.page :=
  (decode_cases h).2.imp (fun hb => hb.1) fun hl => hl.2.1

/-- The dialect can spell what it decodes. -/
theorem spelling_of_decode {d : Dialect} {a : Word} {b : Flat} {i : Instruction} (h : (decode d a b).1 = .ok i) :
    ∃ spelling, i.descriptor.spelling? d = some spelling :=
  Option.isSome_iff_exists.mp (decode_cases h).1

/-! ## The halt -/

def haltByte : Byte := 0x76

/-- The one instruction that halts is the base page's. -/
theorem action_eq_halt_iff {d : Dialect} {a : Word} {b : Flat} {i : Instruction} (h : (decode d a b).1 = .ok i) :
    i.descriptor.action = .halt ↔ b.memory.get a = haltByte := by
  have inBase : ∀ o, (Page.base.slot o).all (fun e => e.action = .halt ↔ o = haltByte) = true := by decide +kernel
  have elsewhere : ∀ p : Page, p ≠ .base → ∀ o, (p.slot o).all (fun e => e.action ≠ .halt) = true := by
    intro p hp
    cases p with
    | base => exact absurd rfl hp
    | dd => decide +kernel
    | ed => decide +kernel
    | fd => decide +kernel
  have hslot := slot_of_decode h
  by_cases hb : i.page = .base
  · rw [hb, show a + BitVec.ofNat 16 (Page.base.width - 1) = a from BitVec.add_zero a] at hslot
    exact of_decide_eq_true (Slot.of_all (inBase _) hslot)
  · have hne : i.descriptor.action ≠ .halt := of_decide_eq_true (Slot.of_all (elsewhere _ hb _) hslot)
    have hlead : haltByte ∉ leadBytes := by decide
    have hfirst : b.memory.get a ∈ leadBytes :=
      mem_leadBytes_of_slot ((page_of_decode h).resolve_left hb)
    exact ⟨fun ha => absurd ha hne, fun ha => absurd (ha ▸ hfirst) hlead⟩

def haltDescriptor : Descriptor := (Descriptor.zilogOnly "halt" .none .none 1 4 .halt).orIntel "hlt" "" ""

theorem decode_halt {a : Word} {b : Flat} (d : Dialect) (h : b.memory.get a = haltByte) :
    (decode d a b).1 = .ok ⟨haltDescriptor, .base⟩ := by
  apply decode_of_base
  · rw [h]
    rfl
  · cases d <;> rfl

/-! ## Steps -/

namespace Cpu

theorem step_of_decode_error {c : Cpu Flat} {opcode : Byte} (h : (decode c.dialect c.regs.pc c.bus).1 = .error opcode) :
    c.step = (some (.invalid opcode c.regs.pc), c) := by
  obtain ⟨regs, cycles, dialect, bus⟩ := c
  have hd : decode dialect regs.pc bus = (.error opcode, bus) := Prod.ext h (decode_snd ..)
  simp only [step, hd]

/-- A step finds no instruction, or performs one. -/
theorem step_cases (c : Cpu Flat) :
    (∃ opcode, (decode c.dialect c.regs.pc c.bus).1 = .error opcode ∧
      c.step = (some (.invalid opcode c.regs.pc), c)) ∨
    ∃ i o m, (decode c.dialect c.regs.pc c.bus).1 = .ok i ∧
      i.descriptor.action.perform (i.site c.regs.pc) ⟨c.regs.refresh i.page.width, c.bus⟩ = (o, m) ∧
      c.step = (o.stop?, ⟨{ m.regs with pc := i.target c.regs.pc o }, c.cycles + i.cost o, c.dialect, m.bus⟩) := by
  cases h : (decode c.dialect c.regs.pc c.bus).1 with
  | error opcode => exact .inl ⟨opcode, rfl, step_of_decode_error h⟩
  | ok i =>
    obtain ⟨o, m, hp, hs⟩ := exists_perform h
    exact .inr ⟨i, o, m, rfl, hp, hs⟩

end Cpu

end Micro80
