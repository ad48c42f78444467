/-
  Micro80.Proofs.Exchanges — the exchanges trade words between eleven holders: the pairs,
  their alternates, the index registers, and the word on top of the stack. An exchange fills
  the holders with what they held, in another order (`exchanged_eq`), and one after another
  these orders compose (`exchangedBy_eq`). Each undoes itself.

  Proved, on flat memory, for every state and every sequence of exchanges:
  - `exchanges_reversible`: the sequence permutes what is held, and the sequence backward
    puts all of it back, every flag included. The stack pointer and the cells beside the top
    of the stack stay as they are, and the exchange of DE with HL never means an index
    register by HL.
-/

import Mathlib.Algebra.BigOperators.Group.List.Basic
import Mathlib.Algebra.Group.End
import Micro80.Proofs.Stack

namespace Micro80

open Bus (Flat)

/-! ## Holders -/

/-- What holds a word that an exchange can move. -/
inductive Holder where
  | af | bc | de | hl | afAlt | bcAlt | deAlt | hlAlt | ix | iy
  | top
  deriving DecidableEq, Repr

def Pointer.holder : Pointer → Holder
  | hl => .hl
  | ix => .ix
  | iy => .iy

namespace Machine

variable (m : Machine Flat)

def held : Holder → Word
  | .af => m.regs.af
  | .bc => m.regs.bc
  | .de => m.regs.de
  | .hl => m.regs.hl
  | .afAlt => m.regs.afAlt
  | .bcAlt => m.regs.bcAlt
  | .deAlt => m.regs.deAlt
  | .hlAlt => m.regs.hlAlt
  | .ix => m.regs.ix
  | .iy => m.regs.iy
  | .top => m.bus.memory.getWord m.regs.sp

/-- The machine with the words of `v` in the holders. -/
def fill (v : Holder → Word) : Machine Flat :=
  ⟨{ m.regs with
      a := (v .af).high, f := Flags.ofByte (v .af).low, b := (v .bc).high, c := (v .bc).low
      d := (v .de).high, e := (v .de).low, h := (v .hl).high, l := (v .hl).low
      afAlt := v .afAlt, bcAlt := v .bcAlt, deAlt := v .deAlt, hlAlt := v .hlAlt, ix := v .ix, iy := v .iy },
    m.bus.withMemory (m.bus.memory.setWord m.regs.sp (v .top))⟩

variable (v w : Holder → Word)

theorem held_fill : (m.fill v).held = v := by
  funext x
  cases x with
  | af => exact (congrArg _ (Flags.toByte_ofByte _)).trans (Word.ofBytes_high_low _)
  | bc | de | hl => exact Word.ofBytes_high_low _
  | top => exact Memory.getWord_setWord ..
  | afAlt | bcAlt | deAlt | hlAlt | ix | iy => rfl

theorem fill_fill : (m.fill v).fill w = m.fill w := by
  have hm := m.bus.memory.setWord_setWord m.regs.sp (w .top) (v .top)
  unfold fill Flat.withMemory
  rw [← hm]

theorem fill_held : m.fill m.held = m := by
  simp [fill, held, Memory.setWord_getWord, Flat.withMemory, Registers.af, Registers.bc, Registers.de, Registers.hl]

theorem sp_fill : (m.fill v).regs.sp = m.regs.sp := rfl

theorem get_fill_of_ne {a : Word} (hlow : a ≠ m.regs.sp) (hhigh : a ≠ m.regs.sp + 1) :
    (m.fill v).bus.memory.get a = m.bus.memory.get a := Memory.get_setWord_of_ne _ _ _ hlow hhigh

end Machine

/-! ## Exchanges -/

inductive Exchange where
  | af | main | deHl | stack
  deriving DecidableEq, Repr

namespace Exchange

def action : Exchange → Action
  | af => .exchangeAf
  | main => .exchangeMain
  | deHl => .exchangeDeHl
  | stack => .exchangeStack

/-- The holder that each one gets its word from, where HL stands for `x`. -/
def order (x : Pointer) : Exchange → Equiv.Perm Holder
  | af => Equiv.swap Holder.af Holder.afAlt
  | main => Equiv.swap Holder.bc Holder.bcAlt * Equiv.swap Holder.de Holder.deAlt * Equiv.swap Holder.hl Holder.hlAlt
  | deHl => Equiv.swap Holder.de Holder.hl
  | stack => Equiv.swap Holder.top x.holder

theorem inv_order (x : Pointer) (e : Exchange) : (e.order x)⁻¹ = e.order x := by
  cases e with
  | af => exact Equiv.swap_inv Holder.af Holder.afAlt
  | deHl => exact Equiv.swap_inv Holder.de Holder.hl
  | stack => exact Equiv.swap_inv Holder.top x.holder
  | main =>
    apply inv_eq_of_mul_eq_one_left
    ext h
    cases h <;> rfl

def orders (es : List (Exchange × Site)) : Equiv.Perm Holder := (es.map fun e => e.1.order e.2.pointer).prod

theorem orders_cons (e : Exchange × Site) (es : List (Exchange × Site)) :
    orders (e :: es) = e.1.order e.2.pointer * orders es := List.prod_cons

theorem orders_append_reverse (es : List (Exchange × Site)) : orders (es ++ es.reverse) = 1 := by
  have hinv : orders es.reverse = (orders es)⁻¹ := by
    unfold orders
    rw [List.prod_inv_reverse, List.map_map, List.map_reverse]
    simp only [Function.comp_def, inv_order]
  rw [orders, List.map_append, List.prod_append, ← orders, ← orders, hinv, mul_inv_cancel]

end Exchange

namespace Machine

def exchanged (m : Machine Flat) (e : Exchange × Site) : Machine Flat := (e.1.action.perform e.2 m).2

def exchangedBy (m : Machine Flat) (es : List (Exchange × Site)) : Machine Flat := es.foldl exchanged m

theorem exchanged_stack (m : Machine Flat) (s : Site) : m.exchanged (.stack, s) =
    ⟨m.regs.setPointer s.pointer (m.bus.memory.getWord m.regs.sp),
      m.bus.withMemory (m.bus.memory.setWord m.regs.sp (m.regs.pointer s.pointer))⟩ := rfl

theorem held_exchanged (m : Machine Flat) (e : Exchange) (s : Site) (h : Holder) :
    (m.exchanged (e, s)).held h = m.held (e.order s.pointer h) := by
  cases e with
  | af =>
    cases h with
    | af => exact (congrArg _ (Flags.toByte_ofByte _)).trans (Word.ofBytes_high_low _)
    | _ => rfl
  | main =>
    cases h with
    | bc | de | hl => exact Word.ofBytes_high_low _
    | _ => rfl
  | deHl =>
    cases h with
    | de | hl => exact Word.ofBytes_high_low _
    | _ => rfl
  | stack =>
    rw [exchanged_stack]
    generalize s.pointer = x
    cases h with
    | top => cases x <;> exact Memory.getWord_setWord ..
    | hl =>
      cases x with
      | hl => exact Word.ofBytes_high_low _
      | _ => rfl
    | _ => cases x <;> rfl

/-- An exchange changes nothing but what is held. -/
theorem fill_exchanged (m : Machine Flat) (e : Exchange) (s : Site) (v : Holder → Word) :
    (m.exchanged (e, s)).fill v = m.fill v := by
  cases e with
  | af => rfl
  | main => rfl
  | deHl => rfl
  | stack =>
    have hm := m.bus.memory.setWord_setWord m.regs.sp (v .top) (m.regs.pointer s.pointer)
    rw [exchanged_stack]
    generalize s.pointer = x at hm ⊢
    unfold fill Flat.withMemory
    rw [← hm]
    cases x <;> rfl

theorem exchanged_eq (m : Machine Flat) (e : Exchange) (s : Site) :
    m.exchanged (e, s) = m.fill (m.held ∘ e.order s.pointer) := by
  have hheld : (m.exchanged (e, s)).held = m.held ∘ e.order s.pointer := funext (m.held_exchanged e s)
  rw [← (m.exchanged (e, s)).fill_held, hheld, fill_exchanged]

theorem exchangedBy_eq (m : Machine Flat) (es : List (Exchange × Site)) :
    m.exchangedBy es = m.fill (m.held ∘ Exchange.orders es) := by
  induction es generalizing m with
  | nil => exact m.fill_held.symm
  | cons e es ih =>
    have hnext : m.exchangedBy (e :: es) = (m.exchanged e).exchangedBy es := rfl
    rw [hnext, ih, exchanged_eq, held_fill, fill_fill, Exchange.orders_cons]
    rfl

/-- Exchanges permute what is held, leave all else alone, and are undone in reverse. -/
theorem exchanges_reversible (es : List (Exchange × Site)) :
    (∃ σ : Equiv.Perm Holder, ∀ (m : Machine Flat) h, (m.exchangedBy es).held h = m.held (σ h)) ∧
      (∀ m : Machine Flat, (m.exchangedBy es).exchangedBy es.reverse = m ∧ (m.exchangedBy es).regs.sp = m.regs.sp ∧
        ∀ a, a ≠ m.regs.sp → a ≠ m.regs.sp + 1 → (m.exchangedBy es).bus.memory.get a = m.bus.memory.get a) ∧
      ∀ (m : Machine Flat) (s : Site), let n := m.exchanged (.deHl, s)
        n.regs.hl = m.regs.de ∧ n.regs.de = m.regs.hl ∧ n.regs.ix = m.regs.ix ∧ n.regs.iy = m.regs.iy := by
  refine ⟨⟨Exchange.orders es, ?_⟩, ?_, ?_⟩
  · intro m h
    rw [exchangedBy_eq, held_fill]
    rfl
  · intro m
    refine ⟨?_, ?_, ?_⟩
    · have happend : (m.exchangedBy es).exchangedBy es.reverse = m.exchangedBy (es ++ es.reverse) :=
        List.foldl_append.symm
      rw [happend, exchangedBy_eq, Exchange.orders_append_reverse]
      exact m.fill_held
    · rw [exchangedBy_eq, sp_fill]
    · intro a hlow hhigh
      rw [exchangedBy_eq, get_fill_of_ne _ _ hlow hhigh]
  · intro m s
    exact ⟨m.held_exchanged .deHl s .hl, m.held_exchanged .deHl s .de, m.held_exchanged .deHl s .ix,
      m.held_exchanged .deHl s .iy⟩

end Machine

end Micro80
