/-
  Micro80.Proofs.Loading — bytes that are loaded into memory one behind another. The
  address goes on from the top of memory to the bottom, so a list that is longer than
  memory comes round to cells that it has filled already (`Word.exists_last`).

  Proved, for every memory, every address and lists of any length:
  - `load_wraps`: a cell holds the last of the bytes that came to it, or what it held if
    none did. A list may be loaded in two parts, the second from where the first ends, and
    the ports stay as they are.
-/

import Micro80.Host.Flat

namespace Micro80

open Bus (Flat)

/-- However often `n` steps upward come by a cell, there is a last time. -/
theorem Word.exists_last {a x : Word} {n : Nat} (h : x ∈ a.cells n) :
    ∃ i < n, a + BitVec.ofNat 16 i = x ∧ ∀ j, i < j → j < n → a + BitVec.ofNat 16 j ≠ x := by
  induction n with
  | zero => cases h
  | succ n ih =>
    by_cases hn : a + BitVec.ofNat 16 n = x
    · exact ⟨n, Nat.lt_succ_self n, hn, fun j hj hlt => absurd hj (Nat.not_lt_of_le (Nat.le_of_lt_succ hlt))⟩
    · rw [cells_concat, List.mem_append, List.mem_singleton] at h
      rcases h with h | h
      · obtain ⟨i, hi, hx, hlast⟩ := ih h
        refine ⟨i, Nat.lt_succ_of_lt hi, hx, fun j hj hlt => ?_⟩
        rcases Nat.lt_succ_iff_lt_or_eq.mp hlt with hlt | rfl
        · exact hlast j hj hlt
        · exact hn
      · exact absurd h.symm hn

/-- What comes to a cell last is in it. -/
theorem Memory.get_load_of_last (m : Memory) {a x : Word} {bytes : List Byte} {i : Nat} (hi : i < bytes.length)
    (hx : a + BitVec.ofNat 16 i = x) (hlast : ∀ j, i < j → j < bytes.length → a + BitVec.ofNat 16 j ≠ x) :
    (m.load a bytes).get x = bytes[i] := by
  have hrest : ∀ k < (bytes.drop (i + 1)).length, x + 1 + BitVec.ofNat 16 k ≠ x := by
    intro k hk
    rw [List.length_drop] at hk
    rw [← Word.add_ofNat_succ, ← hx, BitVec.add_assoc, ← BitVec.ofNat_add, hx]
    exact hlast (i + (k + 1)) (by omega) (by omega)
  have hsplit : bytes = bytes.take i ++ bytes[i] :: bytes.drop (i + 1) := by
    rw [List.getElem_cons_drop, List.take_append_drop]
  calc (m.load a bytes).get x
      = ((m.load a (bytes.take i)).load (a + BitVec.ofNat 16 (bytes.take i).length)
          (bytes[i] :: bytes.drop (i + 1))).get x := by rw [← load_append, ← hsplit]
    _ = (((m.load a (bytes.take i)).set x bytes[i]).load (x + 1) (bytes.drop (i + 1))).get x := by
        rw [List.length_take_of_le (Nat.le_of_lt hi), hx, load]
    _ = bytes[i] := by rw [get_load_of_ne _ hrest, get_set_self]

namespace Bus.Flat

/-- Bytes go into memory in order from `a` upward; a later one takes the place of an earlier
    one where both come to the same cell. -/
theorem load_wraps (b : Flat) (a : Word) (bytes : List Byte) :
    (∀ x,
      (∃ i, ∃ hi : i < bytes.length, a + BitVec.ofNat 16 i = x ∧
          (∀ j, i < j → j < bytes.length → a + BitVec.ofNat 16 j ≠ x) ∧
          (b.load a bytes).memory.get x = bytes[i]) ∨
        (∀ i < bytes.length, a + BitVec.ofNat 16 i ≠ x) ∧
          (b.load a bytes).memory.get x = b.memory.get x) ∧
      (∀ more, b.load a (bytes ++ more) =
        (b.load a bytes).load (a + BitVec.ofNat 16 bytes.length) more) ∧
      (b.load a bytes).inputs = b.inputs ∧ (b.load a bytes).outputs = b.outputs := by
  refine ⟨fun x => ?_, fun more => ?_, rfl, rfl⟩
  · by_cases hx : x ∈ a.cells bytes.length
    · obtain ⟨i, hi, hcell, hlast⟩ := Word.exists_last hx
      exact .inl ⟨i, hi, hcell, hlast, b.memory.get_load_of_last hi hcell hlast⟩
    · have hnone : ∀ i < bytes.length, a + BitVec.ofNat 16 i ≠ x := by
        intro i hi hcell
        exact hx (Word.mem_cells.mpr ⟨i, hi, hcell⟩)
      exact .inr ⟨hnone, b.memory.get_load_of_ne hnone⟩
  · have hmemory := b.memory.load_append a bytes more
    exact congrArg (fun m => { b with memory := m }) hmemory

end Bus.Flat

end Micro80
