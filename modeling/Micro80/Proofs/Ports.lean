/-
  Micro80.Proofs.Ports — the ports, over sessions of any length. A port instruction sends a
  register or receives one (`PortUse`), through the port that its operand byte or C gives.
  An action that uses a port is spelled as such an instruction, and the other actions are
  spelled otherwise (`portUse_of_slot`).

  Proved, for every state of either dialect:
  - `port_traffic`: a session adds to the outputs what its `out` instructions send, in their
    order, and nothing else. A step leaves the inputs alone, and `in` receives what the host
    gave the port last.
-/

import Micro80.Proofs.Hosting
import Micro80.Proofs.Session
import Micro80.Proofs.Traffic

namespace Micro80

open Bus (Flat)
open Encoding (regName)
open Operand (register memoryAt port)

theorem Encoding.regName_injective : Function.Injective regName := by
  intro x y h
  cases x <;> cases y <;> first | rfl | exact absurd h (by decide)

structure PortUse where
  outward : Bool
  immediate : Bool
  reg : Reg
  deriving DecidableEq, Repr

namespace PortUse

variable (u : PortUse)

/-- `out (n),a`, `out (c),r`, `in a,(n)` or `in r,(c)`. -/
def form : Form :=
  let place := if u.immediate then port else memoryAt "c"
  if u.outward then ⟨"out", place, register (regName u.reg)⟩ else ⟨"in", register (regName u.reg), place⟩

def port (n : Byte) (r : Registers) : Byte := if u.immediate then n else r.c

/-- Port and value of the output, if it is one. -/
def sent (n : Byte) (r : Registers) : List (Byte × Byte) :=
  if u.outward then [(u.port n r, r.get u.reg)] else []

/-- The text tells port instructions apart. -/
theorem form_injective : Function.Injective form := by
  have hplace : ∀ x y : Bool, (if x then Operand.port else memoryAt "c") = (if y then Operand.port else memoryAt "c") →
      x = y := by decide
  have hmnemonic : "in" ≠ "out" := by decide
  rintro ⟨outward, immediate, x⟩ ⟨outward', immediate', y⟩ h
  cases outward with
  | true =>
    cases outward' with
    | true =>
      obtain ⟨-, hp, hr⟩ := Form.mk.inj h
      obtain rfl : immediate = immediate' := hplace _ _ hp
      obtain rfl : x = y := Encoding.regName_injective (congrArg Operand.name hr)
      rfl
    | false => exact absurd (congrArg Form.mnemonic h) hmnemonic.symm
  | false =>
    cases outward' with
    | true => exact absurd (congrArg Form.mnemonic h) hmnemonic
    | false =>
      obtain ⟨-, hr, hp⟩ := Form.mk.inj h
      obtain rfl : immediate = immediate' := hplace _ _ hp
      obtain rfl : x = y := Encoding.regName_injective (congrArg Operand.name hr)
      rfl

theorem mnemonic_mem : u.form.mnemonic ∈ ["in", "out"] := by
  obtain ⟨outward, immediate, x⟩ := u
  cases outward with
  | true => exact .tail _ (.head _)
  | false => exact .head _

end PortUse

/-! ## Actions -/

namespace DataWrite

def sent : DataWrite → List (Byte × Byte)
  | port p v => [(p, v)]
  | _ => []

theorem outputs_apply (w : DataWrite) (b : Flat) : (w.apply b).outputs.toList = b.outputs.toList ++ w.sent := by
  cases w with
  | port p v => exact Array.toList_push
  | none | byte a v | word a w | stack sp w => exact (List.append_nil _).symm

theorem inputs_apply (w : DataWrite) (b : Flat) : (w.apply b).inputs = b.inputs := by
  cases w <;> rfl

end DataWrite

namespace Action

def portUse? : Action → Option PortUse
  | outputImmediate => some ⟨true, true, .a⟩
  | inputImmediate => some ⟨false, true, .a⟩
  | output src => some ⟨true, false, src⟩
  | input dst => some ⟨false, false, dst⟩
  | _ => none

variable (a : Action) (s : Site) (m : Machine Flat)

theorem sent_writes :
    (a.writes s m).sent = (a.portUse?.map fun u => u.sent (m.bus.memory.get s.immediate) m.regs).getD [] := by
  cases a with
  | load dst src => cases dst <;> rfl
  | loadImmediate dst | increment dst | decrement dst => cases dst <;> rfl
  | callIf cc =>
    by_cases h : cc.holds m.regs.f = true
    · rw [writes, if_pos h]
      rfl
    · rw [writes, if_neg h]
      rfl
  | _ => rfl

variable {a}

/-- A port instruction leaves the memory alone; an input lands in its register, and the bus
    does not notice. -/
theorem perform_of_portUse {u : PortUse} (h : a.portUse? = some u) :
    (a.perform s m).1 = .next ∧ (a.perform s m).2.bus.memory = m.bus.memory ∧
      (u.outward = false →
        (a.perform s m).2.regs.get u.reg = m.bus.getInput (u.port (m.bus.memory.get s.immediate) m.regs) ∧
          (a.perform s m).2.bus = m.bus) := by
  cases a with
  | outputImmediate | output src =>
    cases h
    exact ⟨rfl, rfl, nofun⟩
  | inputImmediate =>
    cases h
    exact ⟨rfl, rfl, fun _ => ⟨rfl, rfl⟩⟩
  | input dst =>
    cases h
    exact ⟨rfl, rfl, fun _ => ⟨Registers.get_set _ dst _, rfl⟩⟩
  | _ => cases h

end Action

/-! ## The pages -/

/-- Port instructions are those that are spelled so, and the operand byte of one follows its
    one opcode byte. -/
theorem portUse_of_slot {p : Page} {opcode : Byte} {d : Descriptor} (h : p.slot opcode = .instruction d) :
    (∀ u ∈ d.action.portUse?, d.form = u.form ∧ (u.immediate = true → p = .base)) ∧
      (d.action.portUse? = none → d.form.mnemonic ∉ ["in", "out"]) := by
  have checked : ∀ o, (p.slot o).all (fun d =>
      (∀ u ∈ d.action.portUse?, d.form = u.form ∧ (u.immediate = true → p = .base)) ∧
        (d.action.portUse? = none → d.form.mnemonic ∉ ["in", "out"])) = true := by
    cases p <;> decide +kernel
  exact of_decide_eq_true (Slot.of_all (checked opcode) h)

theorem Instruction.site_immediate {i : Instruction} (h : i.page = .base) (a : Word) :
    (i.site a).immediate = a + 1 := by
  unfold Site.immediate site
  rw [h]
  exact BitVec.add_zero _

/-! ## Steps -/

namespace Cpu

/-- The port instruction at the program counter, if one is there. -/
def portUse? (c : Cpu Flat) : Option PortUse :=
  match (decode c.dialect c.regs.pc c.bus).1 with
  | .ok i => i.descriptor.action.portUse?
  | .error _ => none

def operandByte (c : Cpu Flat) : Byte := c.bus.memory.get (c.regs.pc + 1)

/-- What a step sends to ports. -/
def sent (c : Cpu Flat) : List (Byte × Byte) := (c.portUse?.map fun u => u.sent c.operandByte c.regs).getD []

section
variable {c : Cpu Flat}

theorem portUse_of_decode {i : Instruction} (h : (decode c.dialect c.regs.pc c.bus).1 = .ok i) :
    c.portUse? = i.descriptor.action.portUse? := by
  simp only [portUse?, h]

theorem decode_of_portUse {u : PortUse} (h : c.portUse? = some u) :
    ∃ i, (decode c.dialect c.regs.pc c.bus).1 = .ok i ∧ i.descriptor.action.portUse? = some u := by
  cases hd : (decode c.dialect c.regs.pc c.bus).1 with
  | error opcode =>
    simp only [portUse?, hd] at h
    cases h
  | ok i => exact ⟨i, rfl, by rwa [portUse_of_decode hd] at h⟩

/-- A step uses a port as the text of its instruction says. -/
theorem portUse_iff {u : PortUse} :
    c.portUse? = some u ↔ ∃ i, (decode c.dialect c.regs.pc c.bus).1 = .ok i ∧ i.descriptor.form = u.form := by
  constructor
  · intro h
    obtain ⟨i, hd, hu⟩ := decode_of_portUse h
    exact ⟨i, hd, ((portUse_of_slot (slot_of_decode hd)).1 u hu).1⟩
  · rintro ⟨i, hd, hform⟩
    obtain ⟨hspelled, hnone⟩ := portUse_of_slot (slot_of_decode hd)
    rw [portUse_of_decode hd]
    cases hu : i.descriptor.action.portUse? with
    | some v => rw [PortUse.form_injective (hform.symm.trans (hspelled v hu).1)]
    | none => exact absurd (hform ▸ u.mnemonic_mem) (hnone hu)

theorem portUse_isSome {i : Instruction} (hd : (decode c.dialect c.regs.pc c.bus).1 = .ok i)
    (hm : i.descriptor.form.mnemonic ∈ ["in", "out"]) : c.portUse?.isSome = true := by
  rw [portUse_of_decode hd, Option.isSome_iff_ne_none]
  exact fun hu => (portUse_of_slot (slot_of_decode hd)).2 hu hm

/-- The port that an action uses is the one that can be seen before the step. -/
theorem port_site {i : Instruction} {u : PortUse} (hd : (decode c.dialect c.regs.pc c.bus).1 = .ok i)
    (hu : i.descriptor.action.portUse? = some u) :
    u.port (c.bus.memory.get (i.site c.regs.pc).immediate) (c.regs.refresh i.page.width) =
      u.port c.operandByte c.regs := by
  have hpage := ((portUse_of_slot (slot_of_decode hd)).1 u hu).2
  unfold PortUse.port operandByte
  by_cases hi : u.immediate = true
  · rw [if_pos hi, if_pos hi, Instruction.site_immediate (hpage hi)]
  · rw [if_neg hi, if_neg hi]
    rfl

theorem sent_of_decode {i : Instruction} (hd : (decode c.dialect c.regs.pc c.bus).1 = .ok i) :
    c.sent = (i.writes c).sent := by
  rw [Instruction.writes, Action.sent_writes, sent, portUse_of_decode hd]
  cases hu : i.descriptor.action.portUse? with
  | none => rfl
  | some u =>
    have hp := port_site hd hu
    simp only [Option.map_some, Option.getD_some, PortUse.sent]
    rw [hp]
    rfl

theorem bus_of_decode {i : Instruction} (hd : (decode c.dialect c.regs.pc c.bus).1 = .ok i) :
    c.step.2.bus = (i.writes c).apply c.bus := by
  rw [step_of_decode hd rfl]
  exact Action.perform_bus ..

end

theorem outputs_step (c : Cpu Flat) : c.step.2.bus.outputs.toList = c.bus.outputs.toList ++ c.sent := by
  cases hd : (decode c.dialect c.regs.pc c.bus).1 with
  | error opcode =>
    have hs : c.sent = [] := by simp only [sent, portUse?, hd, Option.map_none, Option.getD_none]
    rw [step_of_decode_error hd, hs, List.append_nil]
  | ok i => rw [bus_of_decode hd, DataWrite.outputs_apply, sent_of_decode hd]

theorem inputs_step (c : Cpu Flat) : c.step.2.bus.inputs = c.bus.inputs := by
  cases hd : (decode c.dialect c.regs.pc c.bus).1 with
  | error opcode => rw [step_of_decode_error hd]
  | ok i => rw [bus_of_decode hd, DataWrite.inputs_apply]

theorem step_of_portUse {c : Cpu Flat} {u : PortUse} (h : c.portUse? = some u) :
    c.step.1 = none ∧ c.step.2.bus.memory = c.bus.memory ∧
      (u.outward = false →
        c.step.2.regs.get u.reg = c.bus.getInput (u.port c.operandByte c.regs) ∧ c.step.2.bus = c.bus) := by
  obtain ⟨i, hd, hu⟩ := decode_of_portUse h
  have hperform := Action.perform_of_portUse (i.site c.regs.pc) ⟨c.regs.refresh i.page.width, c.bus⟩ hu
  rw [port_site hd hu] at hperform
  obtain ⟨o, m, hp, hs⟩ := exists_perform hd
  rw [hp] at hperform
  obtain ⟨ho, hm, hin⟩ := hperform
  rw [hs]
  refine ⟨congrArg Outcome.stop? ho, hm, fun hu => ?_⟩
  obtain ⟨hget, hbus⟩ := hin hu
  refine ⟨?_, hbus⟩
  rw [← hget]
  cases u.reg <;> rfl

end Cpu

/-! ## Sessions -/

namespace Operation

def event : Operation → Event Flat
  | step => .step
  | reset cold => .reset cold
  | setPc a => .setPc a
  | load a bytes => .change (·.load a bytes)
  | setInput p v => .change (·.setInput p v)

def gives? (p : Byte) : Operation → Option Byte
  | setInput q v => if q = p then some v else none
  | _ => none

end Operation

/-- The values that a session gives to a port, in order. -/
def given (p : Byte) (ops : List Operation) : List Byte := ops.filterMap (Operation.gives? p)

namespace Cpu

def visited (c : Cpu Flat) (ops : List Operation) : List (Cpu Flat) := c.stepped (ops.map Operation.event)

theorem outputs_acted {c : Cpu Flat} {ops : List Operation} (h : .reset true ∉ ops) :
    (c.acted ops).bus.outputs.toList = c.bus.outputs.toList ++ (c.visited ops).flatMap sent := by
  induction ops generalizing c with
  | nil => exact (List.append_nil _).symm
  | cons op ops ih =>
    have hrest : .reset true ∉ ops := fun hm => h (.tail _ hm)
    cases op with
    | step =>
      calc (c.step.2.acted ops).bus.outputs.toList
          = c.step.2.bus.outputs.toList ++ (c.step.2.visited ops).flatMap sent := ih hrest
        _ = c.bus.outputs.toList ++ (c.sent ++ (c.step.2.visited ops).flatMap sent) := by
            rw [outputs_step, List.append_assoc]
    | reset cold =>
      cases cold with
      | true => exact absurd (.head _) h
      | false => exact ih hrest
    | setPc a | load a bytes | setInput p v => exact ih hrest

theorem getInput_act (c : Cpu Flat) (op : Operation) (p : Byte) :
    (c.act op).2.bus.getInput p = (op.gives? p).getD (c.bus.getInput p) := by
  cases op with
  | step => exact congrArg (fun inputs : Vector Byte 256 => inputs[p.toNat]) c.inputs_step
  | reset cold => cases cold <;> rfl
  | setPc a | load a bytes => rfl
  | setInput q v =>
    refine (c.bus.getInput_setInput q p v).trans ?_
    by_cases h : q = p
    · rw [Operation.gives?, if_pos h, if_pos h, Option.getD_some]
    · rw [Operation.gives?, if_neg h, if_neg h, Option.getD_none]

/-- A port has the value that it was given last. -/
theorem getInput_acted (c : Cpu Flat) (ops : List Operation) (p : Byte) :
    (c.acted ops).bus.getInput p = (given p ops).getLastD (c.bus.getInput p) := by
  induction ops generalizing c with
  | nil => rfl
  | cons op ops ih =>
    have hact := c.getInput_act op p
    rw [acted, ih, hact]
    unfold given
    cases hv : op.gives? p with
    | none => rw [List.filterMap_cons_none hv, Option.getD_none]
    | some v => rw [List.filterMap_cons_some hv, List.getLastD_cons, Option.getD_some]

/-- A step uses a port where its instruction is spelled `in` or `out`, and nowhere else. A
    session adds to the outputs what it sends, in order; every input is what the host gave the
    port last, and stays there. -/
theorem port_traffic (c : Cpu Flat) :
    (∀ u, c.portUse? = some u ↔ ∃ i, (decode c.dialect c.regs.pc c.bus).1 = .ok i ∧ i.descriptor.form = u.form) ∧
      (∀ i, (decode c.dialect c.regs.pc c.bus).1 = .ok i → i.descriptor.form.mnemonic ∈ ["in", "out"] →
        c.portUse?.isSome = true) ∧
      (c.portUse?.isSome = true → c.step.1 = none ∧ c.step.2.bus.memory = c.bus.memory) ∧
      c.step.2.bus.inputs = c.bus.inputs ∧
      (∀ ops, .reset true ∉ ops →
        (c.acted ops).bus.outputs.toList = c.bus.outputs.toList ++ (c.visited ops).flatMap sent) ∧
      (∀ ops u, (c.acted ops).portUse? = some u → u.outward = false →
        let k := c.acted ops
        let p := u.port k.operandByte k.regs
        k.step.2.regs.get u.reg = (given p ops).getLastD (c.bus.getInput p) ∧ k.step.2.bus = k.bus) ∧
      ∀ p, ({} : Flat).getInput p = 0xFF := by
  refine ⟨fun u => portUse_iff, fun i hd hm => portUse_isSome hd hm, ?_, c.inputs_step,
    fun ops h => outputs_acted h, ?_, fun p => Vector.getElem_replicate ..⟩
  · intro h
    obtain ⟨u, hu⟩ := Option.isSome_iff_exists.mp h
    obtain ⟨hnone, hmemory, -⟩ := step_of_portUse hu
    exact ⟨hnone, hmemory⟩
  · intro ops u hu ho k p
    obtain ⟨-, -, hin⟩ := step_of_portUse hu
    obtain ⟨hget, hbus⟩ := hin ho
    exact ⟨hget.trans (c.getInput_acted ops p), hbus⟩

/-- `out (10h),a` with 0x41 in A; then `in a,(c)` receives the second of two values. -/
theorem port_traffic_both :
    let c : Cpu Flat := ⟨{ a := 0x41, c := 0x20 }, 0, .z80, { memory := Memory.zero.load 0 [0xD3, 0x10, 0xED, 0x78] }⟩
    let ops : List Operation := [.setInput 0x20 0x33, .setInput 0x20 0x55, .step]
    .reset true ∉ ops ∧ (c.acted ops).portUse? = some ⟨false, false, .a⟩ ∧
      (c.acted ops).bus.outputs.toList = [(0x10, 0x41)] ∧ (c.acted ops).step.2.regs.a = 0x55 := by
  intro c ops
  have hr : .reset true ∉ ops := by decide
  have hu : (c.acted ops).portUse? = some ⟨false, false, .a⟩ := by decide +kernel
  have hsent : (c.visited ops).flatMap sent = [(0x10, 0x41)] := by decide +kernel
  have hport : (c.acted ops).regs.c = 0x20 := by decide +kernel
  obtain ⟨-, -, -, -, hlog, hin, -⟩ := port_traffic c
  have hlog := hlog ops hr
  have hget := (hin ops _ hu rfl).1
  rw [hsent] at hlog
  refine ⟨hr, hu, hlog, hget.trans ?_⟩
  simp only [PortUse.port, Bool.false_eq_true, if_false, hport]
  rfl

end Cpu

end Micro80
