/-
  Micro80.Proofs.Stack — the stack in memory. A cell is at a depth below the stack pointer,
  the last one being the pointer's own (`Word.depth`), and what was pushed lies there byte
  under byte (`get_pushed`): up to as many words as memory holds no depth comes twice, so
  that no word covers another.

  Proved, on flat memory, for every state and every list of at most 32768 words:
  - `popAll_pushAll`: pushing the words and popping as many gives them back from the last
    to the first and restores the stack pointer. A push changes the cells of its own word
    and nothing else in memory; a pop changes none.
-/

import Mathlib.Data.List.Nodup
import Micro80.Proofs.Flat

namespace Micro80

open Bus (Flat)

/-! ## Words in memory -/

namespace Memory

variable (m : Memory) (a w : Word)

theorem get_setWord_high : (m.setWord a w).get (a + 1) = w.high := get_set_self ..

theorem get_setWord_low : (m.setWord a w).get a = w.low := by
  have hne : a + 1 ≠ a := by bv_omega
  rw [setWord, get_set_of_ne _ _ hne, get_set_self]

theorem get_setWord_of_ne {b : Word} (hlow : b ≠ a) (hhigh : b ≠ a + 1) : (m.setWord a w).get b = m.get b := by
  rw [setWord, get_set_of_ne _ _ hhigh.symm, get_set_of_ne _ _ hlow.symm]

theorem getWord_setWord : (m.setWord a w).getWord a = w := by
  rw [getWord, get_setWord_high, get_setWord_low, Word.ofBytes_high_low]

theorem get_setWord (b : Word) :
    (m.setWord a w).get b = if b = a then w.low else if b = a + 1 then w.high else m.get b := by
  by_cases hlow : b = a
  · rw [if_pos hlow, hlow, get_setWord_low]
  · by_cases hhigh : b = a + 1
    · rw [if_neg hlow, if_pos hhigh, hhigh, get_setWord_high]
    · rw [if_neg hlow, if_neg hhigh, get_setWord_of_ne _ _ _ hlow hhigh]

theorem setWord_setWord (v : Word) : (m.setWord a v).setWord a w = m.setWord a w := by
  apply ext_get
  intro b
  simp only [get_setWord]
  grind

theorem setWord_getWord : m.setWord a (m.getWord a) = m := by
  apply ext_get
  intro b
  simp only [get_setWord, getWord, Word.low_ofBytes, Word.high_ofBytes]
  grind

end Memory

/-! ## Depth -/

namespace Word

/-- How many cells lie above `a` and below the stack pointer. -/
def depth (sp a : Word) : Nat := (sp - 1 - a).toNat

variable (sp a : Word)

theorem depth_below {n : Nat} (h : n < 65536) : sp.depth (sp - BitVec.ofNat 16 (n + 1)) = n := by
  unfold depth
  bv_omega

theorem below_depth : sp - BitVec.ofNat 16 (sp.depth a + 1) = a := by
  unfold depth
  bv_omega

/-- No cell comes twice in the whole of memory downward from the stack pointer. -/
theorem nodup_below {n : Nat} (h : n ≤ 65536) : ((List.range n).map fun k => sp - BitVec.ofNat 16 (k + 1)).Nodup := by
  refine List.Nodup.map_on (fun j hj k hk hjk => ?_) List.nodup_range
  rw [List.mem_range] at hj hk
  have hdepth := congrArg sp.depth hjk
  rwa [depth_below sp (by omega), depth_below sp (by omega)] at hdepth

/-- A push brings every cell two nearer, and the two that it wrote to the far end. -/
theorem depth_sub_two : (sp - 2).depth a = if sp.depth a < 2 then sp.depth a + 65534 else sp.depth a - 2 := by
  unfold depth
  split <;> bv_omega

end Word

/-! ## Pushed words -/

/-- The bytes of words downward from the stack pointer, each word's high byte first. -/
def stackBytes (ws : List Word) : List Byte := ws.flatMap fun w => [w.high, w.low]

theorem length_stackBytes (ws : List Word) : (stackBytes ws).length = 2 * ws.length := by
  induction ws with
  | nil => rfl
  | cons w ws ih =>
    have hcons : (stackBytes (w :: ws)).length = (stackBytes ws).length + 2 := rfl
    rw [hcons, ih, List.length_cons]
    omega

theorem stackBytes_getElem? {ws : List Word} {i : Nat} (h : i < ws.length) :
    (stackBytes ws)[2 * i]? = some ws[i].high ∧ (stackBytes ws)[2 * i + 1]? = some ws[i].low := by
  induction ws generalizing i with
  | nil => cases h
  | cons w ws ih =>
    cases i with
    | zero => exact ⟨rfl, rfl⟩
    | succ i => exact ih (Nat.lt_of_succ_lt_succ h)

namespace Memory

def pushed (m : Memory) (sp : Word) : List Word → Memory
  | [] => m
  | w :: ws => (m.setWord (sp - 2) w).pushed (sp - 2) ws

/-- A cell holds the pushed byte that is as deep, or else what it held. -/
theorem get_pushed (m : Memory) (sp a : Word) {ws : List Word} (h : ws.length ≤ 32768) :
    (m.pushed sp ws).get a = (stackBytes ws)[sp.depth a]?.getD (m.get a) := by
  induction ws generalizing m sp with
  | nil => rfl
  | cons w ws ih =>
    rw [List.length_cons] at h
    rw [pushed, ih _ _ (by omega), Word.depth_sub_two]
    have hcell : sp.depth a = (sp - 1 - a).toNat := rfl
    rcases hdepth : sp.depth a with _ | _ | n
    · -- the rest, even with all of memory to fill, ends above the word's own cells
      have hend : (stackBytes ws)[0 + 65534]? = none := List.getElem?_eq_none (by rw [length_stackBytes]; omega)
      rw [if_pos (by omega), hend, show a = sp - 2 + 1 by bv_omega]
      exact m.get_setWord_high ..
    · have hend : (stackBytes ws)[0 + 1 + 65534]? = none := List.getElem?_eq_none (by rw [length_stackBytes]; omega)
      rw [if_pos (by omega), hend, show a = sp - 2 by bv_omega]
      exact m.get_setWord_low ..
    · have hlow : a ≠ sp - 2 := by bv_omega
      have hhigh : a ≠ sp - 2 + 1 := by bv_omega
      rw [if_neg (by omega), m.get_setWord_of_ne _ _ hlow hhigh]
      rfl

section
variable (m : Memory) (sp : Word) {ws : List Word} (h : ws.length ≤ 32768)
include h

/-- Each word stands where it was pushed. -/
theorem get_pushed_word {i : Nat} (hi : i < ws.length) :
    (m.pushed sp ws).get (sp - BitVec.ofNat 16 (2 * i + 1)) = ws[i].high ∧
      (m.pushed sp ws).get (sp - BitVec.ofNat 16 (2 * i + 2)) = ws[i].low := by
  obtain ⟨hhigh, hlow⟩ := stackBytes_getElem? hi
  rw [get_pushed _ _ _ h, get_pushed _ _ _ h, Word.depth_below sp (n := 2 * i) (by omega),
    Word.depth_below sp (n := 2 * i + 1) (by omega), hhigh, hlow]
  exact ⟨rfl, rfl⟩

theorem getWord_pushed {i : Nat} (hi : i < ws.length) :
    (m.pushed sp ws).getWord (sp - BitVec.ofNat 16 (2 * i + 2)) = ws[i] := by
  obtain ⟨hhigh, hlow⟩ := m.get_pushed_word sp h hi
  have hnext : sp - BitVec.ofNat 16 (2 * i + 2) + 1 = sp - BitVec.ofNat 16 (2 * i + 1) := by bv_omega
  rw [getWord, hnext, hhigh, hlow, Word.ofBytes_high_low]

/-- Upward from the last word, the words stand in reverse. -/
theorem getWords_pushed :
    (List.range ws.length).map (fun i =>
      (m.pushed sp ws).getWord (sp - BitVec.ofNat 16 (2 * ws.length) + BitVec.ofNat 16 (2 * i))) = ws.reverse := by
  refine List.ext_getElem (by rw [List.length_map, List.length_range, List.length_reverse]) fun i hi _ => ?_
  rw [List.length_map, List.length_range] at hi
  have hcell : sp - BitVec.ofNat 16 (2 * ws.length) + BitVec.ofNat 16 (2 * i) =
      sp - BitVec.ofNat 16 (2 * (ws.length - 1 - i) + 2) := by bv_omega
  rw [List.getElem_map, List.getElem_range, List.getElem_reverse, hcell]
  exact m.getWord_pushed sp h (by omega)

/-- Nothing but the words' own cells is written. -/
theorem get_pushed_of_ne {a : Word} (ha : ∀ n < 2 * ws.length, a ≠ sp - BitVec.ofNat 16 (n + 1)) :
    (m.pushed sp ws).get a = m.get a := by
  have hdeep : 2 * ws.length ≤ sp.depth a :=
    Nat.le_of_not_lt fun hshallow => ha _ hshallow (sp.below_depth a).symm
  rw [get_pushed _ _ _ h, List.getElem?_eq_none (by rwa [length_stackBytes])]
  rfl

end

end Memory

/-! ## Pushing and popping -/

namespace Effect

section
variable {β : Type} [Bus β]

def pushAll : List Word → Effect β Unit
  | [] => pure ()
  | w :: ws => do
    push w
    pushAll ws

def popAll : Nat → Effect β (List Word)
  | 0 => pure []
  | n + 1 => do
    let w ← pop
    let ws ← popAll n
    return w :: ws

end

theorem pushAll_apply (ws : List Word) (m : Machine Flat) :
    pushAll ws m = ((), ⟨{ m.regs with sp := m.regs.sp - BitVec.ofNat 16 (2 * ws.length) },
      m.bus.withMemory (m.bus.memory.pushed m.regs.sp ws)⟩) := by
  induction ws generalizing m with
  | nil =>
    rw [List.length_nil, show m.regs.sp - BitVec.ofNat 16 (2 * 0) = m.regs.sp from BitVec.sub_zero _]
    rfl
  | cons w ws ih =>
    have hsp : m.regs.sp - 2 - BitVec.ofNat 16 (2 * ws.length) =
        m.regs.sp - BitVec.ofNat 16 (2 * (ws.length + 1)) := by bv_omega
    rw [pushAll, bind_apply, push_apply, ih, List.length_cons, ← hsp]
    rfl

theorem popAll_apply (n : Nat) (m : Machine Flat) :
    popAll n m = ((List.range n).map fun i => m.bus.memory.getWord (m.regs.sp + BitVec.ofNat 16 (2 * i)),
      ⟨{ m.regs with sp := m.regs.sp + BitVec.ofNat 16 (2 * n) }, m.bus⟩) := by
  induction n generalizing m with
  | zero =>
    rw [show m.regs.sp + BitVec.ofNat 16 (2 * 0) = m.regs.sp from BitVec.add_zero _]
    rfl
  | succ n ih =>
    have hsp : ∀ i, m.regs.sp + 2 + BitVec.ofNat 16 (2 * i) = m.regs.sp + BitVec.ofNat 16 (2 * (i + 1)) := by
      intro i
      bv_omega
    have hfirst : m.regs.sp = m.regs.sp + BitVec.ofNat 16 (2 * 0) := (BitVec.add_zero _).symm
    rw [popAll, bind_apply, pop_apply, bind_apply, ih, pure_apply, List.range_succ_eq_map, List.map_cons,
      List.map_map, ← hfirst]
    simp only [hsp]
    rfl

/-- The stack gives back what was pushed, the last word first. -/
theorem popAll_pushAll (m : Machine Flat) (ws : List Word) (h : ws.length ≤ 32768) :
    let sp := m.regs.sp
    let m' := (pushAll ws m).2
    let own := (List.range (2 * ws.length)).map fun n => sp - BitVec.ofNat 16 (n + 1)
    m'.regs = { m.regs with sp := sp - BitVec.ofNat 16 (2 * ws.length) } ∧
      m'.bus = m.bus.withMemory m'.bus.memory ∧
      own.Nodup ∧
      (∀ a ∉ own, m'.bus.memory.get a = m.bus.memory.get a) ∧
      (∀ i (hi : i < ws.length), m'.bus.memory.get (sp - BitVec.ofNat 16 (2 * i + 1)) = ws[i].high ∧
        m'.bus.memory.get (sp - BitVec.ofNat 16 (2 * i + 2)) = ws[i].low) ∧
      popAll ws.length m' = (ws.reverse, ⟨m.regs, m'.bus⟩) := by
  intro sp m' own
  have hm' : m' = ⟨{ m.regs with sp := sp - BitVec.ofNat 16 (2 * ws.length) },
      m.bus.withMemory (m.bus.memory.pushed sp ws)⟩ := congrArg Prod.snd (pushAll_apply ws m)
  have hsp : m'.regs.sp + BitVec.ofNat 16 (2 * ws.length) = sp := by
    rw [hm']
    exact BitVec.sub_add_cancel ..
  have hwords := m.bus.memory.getWords_pushed sp h
  refine ⟨by rw [hm'], by rw [hm']; rfl, sp.nodup_below (by omega), ?_, ?_, ?_⟩
  · intro a ha
    rw [hm']
    refine m.bus.memory.get_pushed_of_ne sp h fun n hn heq => ha ?_
    exact List.mem_map.mpr ⟨n, List.mem_range.mpr hn, heq.symm⟩
  · intro i hi
    rw [hm']
    exact m.bus.memory.get_pushed_word sp h hi
  · rw [popAll_apply, hsp, hm', ← hwords]
    rfl

/-- Two words from an odd stack pointer down past the bottom of memory. -/
theorem popAll_pushAll_wraps :
    let m : Machine Flat := ⟨{ sp := 3 }, {}⟩
    let ws : List Word := [0x1234, 0xABCD]
    let m' := (pushAll ws m).2
    ws.length ≤ 32768 ∧ m'.regs = { sp := 0xFFFF } ∧
      m'.bus.memory.slice 0xFFFF 4 = [0xCD, 0xAB, 0x34, 0x12] ∧
      popAll 2 m' = ([0xABCD, 0x1234], ⟨m.regs, m'.bus⟩) := by
  intro m ws m'
  have hlength : ws.length ≤ 32768 := by decide
  obtain ⟨hregs, -, -, -, hcells, hpopped⟩ := popAll_pushAll m ws hlength
  obtain ⟨hhigh₀, hlow₀⟩ := hcells 0 (by decide)
  obtain ⟨hhigh₁, hlow₁⟩ := hcells 1 (by decide)
  have hslice : m'.bus.memory.slice 0xFFFF 4 = [ws[1].low, ws[1].high, ws[0].low, ws[0].high] := by
    rw [← hhigh₀, ← hlow₀, ← hhigh₁, ← hlow₁]
    rfl
  exact ⟨hlength, hregs, hslice.trans (by decide), hpopped⟩

end Effect

end Micro80
