/-
  Micro80.State.Memory — 64 KiB of bytes, one for every word. A cell holds what was last
  written to it (`get_set`), and two memories with the same cells are the same
  (`ext_get`).
-/

import Micro80.Word

namespace Micro80

namespace Word

/-- The `n` addresses from `a` upward, from the top of memory on to the bottom. -/
def cells (a : Word) (n : Nat) : List Word := (List.range n).map fun k => a + BitVec.ofNat 16 k

theorem mem_cells {a x : Word} {n : Nat} : x ∈ a.cells n ↔ ∃ k < n, a + BitVec.ofNat 16 k = x := by
  simp only [cells, List.mem_map, List.mem_range]

theorem add_ofNat_zero (a : Word) : a + BitVec.ofNat 16 0 = a := BitVec.add_zero a

theorem add_ofNat_succ (a : Word) (n : Nat) : a + BitVec.ofNat 16 (n + 1) = a + 1 + BitVec.ofNat 16 n := by
  rw [Nat.add_comm, BitVec.ofNat_add, BitVec.add_assoc]
  rfl

theorem cells_succ (a : Word) (n : Nat) : a.cells (n + 1) = a :: (a + 1).cells n := by
  rw [cells, List.range_succ_eq_map, List.map_cons, List.map_map, a.add_ofNat_zero]
  exact congrArg _ (List.map_congr_left fun k _ => a.add_ofNat_succ k)

theorem cells_concat (a : Word) (n : Nat) : a.cells (n + 1) = a.cells n ++ [a + BitVec.ofNat 16 n] := by
  rw [cells, List.range_succ, List.map_append, List.map_singleton]
  rfl

/-- A block does not come round to the cell before it. -/
theorem not_mem_cells_succ (a : Word) {n : Nat} (h : n < 65536) : a ∉ (a + 1).cells n := by
  rw [mem_cells]
  rintro ⟨k, hk, heq⟩
  bv_omega

/-- Nor to the cell behind it. -/
theorem not_mem_cells_end (a : Word) {n : Nat} (h : n < 65536) : a + BitVec.ofNat 16 n ∉ a.cells n := by
  rw [mem_cells]
  rintro ⟨k, hk, heq⟩
  bv_omega

end Word

structure Memory where
  cells : Vector Byte 65536

namespace Memory

def zero : Memory := ⟨Vector.replicate 65536 0⟩

def get (m : Memory) (a : Word) : Byte := m.cells[a.toNat]

def set (m : Memory) (a : Word) (v : Byte) : Memory := ⟨m.cells.set a.toNat v a.isLt⟩

/-- Bytes from `a` upward, from the top of memory on to the bottom. -/
def load (m : Memory) (a : Word) : List Byte → Memory
  | [] => m
  | b :: rest => (m.set a b).load (a + 1) rest

def slice (m : Memory) (a : Word) (n : Nat) : List Byte :=
  (List.range n).map fun k => m.get (a + BitVec.ofNat 16 k)

/-- Every byte times its address plus one, summed modulo 2^32. -/
def checksum (m : Memory) : BitVec 32 :=
  BitVec.ofNat 32 (Nat.fold 65536 (fun k _ sum => sum + (k + 1) * m.cells[k].toNat) 0)

@[simp] theorem get_zero (a : Word) : zero.get a = 0 := by
  simp [zero, get]

theorem get_set (m : Memory) (a b : Word) (v : Byte) : (m.set a v).get b = if a = b then v else m.get b := by
  simp only [get, set, Vector.getElem_set, BitVec.toNat_inj]

@[simp] theorem get_set_self (m : Memory) (a : Word) (v : Byte) : (m.set a v).get a = v := by
  simp [get_set]

theorem get_set_of_ne (m : Memory) {a b : Word} (v : Byte) (h : a ≠ b) : (m.set a v).get b = m.get b := by
  simp [get_set, h]

theorem ext_get {m n : Memory} (h : ∀ a, m.get a = n.get a) : m = n := by
  obtain ⟨m⟩ := m
  obtain ⟨n⟩ := n
  congr 1
  apply Vector.ext
  intro i hi
  have := h (BitVec.ofNat 16 i)
  simpa only [get, BitVec.toNat_ofNat, Nat.mod_eq_of_lt hi] using this

theorem load_append (m : Memory) (a : Word) (xs ys : List Byte) :
    m.load a (xs ++ ys) = (m.load a xs).load (a + BitVec.ofNat 16 xs.length) ys := by
  induction xs generalizing m a with
  | nil => simp [load]
  | cons x xs ih =>
    rw [List.cons_append, load, ih, load, List.length_cons, a.add_ofNat_succ]

/-! ## Bytes one behind another -/

theorem slice_eq_iff {m m' : Memory} {a : Word} {n : Nat} :
    m.slice a n = m'.slice a n ↔ ∀ k < n, m.get (a + BitVec.ofNat 16 k) = m'.get (a + BitVec.ofNat 16 k) := by
  simp only [slice, List.map_inj_left, List.mem_range]

theorem slice_eq_map_cells (m : Memory) (a : Word) (n : Nat) : m.slice a n = (a.cells n).map m.get := by
  rw [Word.cells, List.map_map]
  rfl

theorem slice_zero (m : Memory) (a : Word) : m.slice a 0 = [] := rfl

theorem slice_succ (m : Memory) (a : Word) (n : Nat) : m.slice a (n + 1) = m.get a :: m.slice (a + 1) n := by
  rw [slice_eq_map_cells, slice_eq_map_cells, Word.cells_succ, List.map_cons]

theorem length_slice (m : Memory) (a : Word) (n : Nat) : (m.slice a n).length = n := by
  rw [slice, List.length_map, List.length_range]

theorem slice_concat (m : Memory) (a : Word) (n : Nat) :
    m.slice a (n + 1) = m.slice a n ++ [m.get (a + BitVec.ofNat 16 n)] := by
  rw [slice_eq_map_cells, slice_eq_map_cells, Word.cells_concat, List.map_append, List.map_singleton]

/-- A write outside a block leaves its bytes alone. -/
theorem slice_set_of_not_mem (m : Memory) {a x : Word} {n : Nat} (v : Byte) (h : x ∉ a.cells n) :
    (m.set x v).slice a n = m.slice a n := by
  rw [slice_eq_iff]
  intro k hk
  apply get_set_of_ne
  rintro rfl
  exact h (Word.mem_cells.mpr ⟨k, hk, rfl⟩)

theorem slice_add (m : Memory) (a : Word) (n k : Nat) :
    m.slice a (n + k) = m.slice a n ++ m.slice (a + BitVec.ofNat 16 n) k := by
  simp only [slice, List.range_add, List.map_append, List.map_map, Function.comp_def, BitVec.ofNat_add,
    BitVec.add_assoc]

/-- Bytes that stand one behind another stand each in its place. -/
theorem slice_append {m : Memory} {a : Word} {xs ys : List Byte} (h : m.slice a (xs ++ ys).length = xs ++ ys) :
    m.slice a xs.length = xs ∧ m.slice (a + BitVec.ofNat 16 xs.length) ys.length = ys := by
  rw [List.length_append, slice_add] at h
  exact List.append_inj h (m.length_slice a xs.length)

theorem get_load_of_ne (m : Memory) {a x : Word} {bytes : List Byte}
    (h : ∀ k < bytes.length, a + BitVec.ofNat 16 k ≠ x) : (m.load a bytes).get x = m.get x := by
  induction bytes generalizing m a with
  | nil => rfl
  | cons b bytes ih =>
    have hfirst : a ≠ x := by
      have h₀ := h 0 (Nat.zero_lt_succ _)
      rwa [a.add_ofNat_zero] at h₀
    rw [load, ih, m.get_set_of_ne b hfirst]
    intro k hk
    have hnext := h (k + 1) (Nat.succ_lt_succ hk)
    rwa [a.add_ofNat_succ] at hnext

/-- Bytes that fit into memory are there after they have been loaded. -/
theorem slice_load (m : Memory) (a : Word) {bytes : List Byte} (h : bytes.length ≤ 65536) :
    (m.load a bytes).slice a bytes.length = bytes := by
  induction bytes generalizing m a with
  | nil => rfl
  | cons b bytes ih =>
    have hlength : bytes.length < 65536 := h
    have hfirst : ((m.set a b).load (a + 1) bytes).get a = (m.set a b).get a := by
      apply get_load_of_ne
      intro k hk
      bv_omega
    rw [List.length_cons, load, slice_succ, hfirst, get_set_self, ih (m.set a b) (a + 1) (Nat.le_of_lt hlength)]

end Memory

end Micro80
