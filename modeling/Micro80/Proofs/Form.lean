/-
  Micro80.Proofs.Form — what the Zilog text of an instruction says, and what the
  instruction does. A form is a mnemonic with two operands, each a kind and a name;
  `forms` writes down how every action is spelled behind each pointer, and no page holds
  an instruction that is spelled otherwise (`form_mem_forms`). What is proved of forms
  is therefore proved of the text, whatever bits of the opcode stand behind it.
-/

import Micro80.Encoding.Lookup

namespace Micro80

open Encoding (regName pairName pairOperand conditionOperand aluName vectorName)
open Operand (register memoryAt indexed immediate immediateWord port absolute relative)

structure Form where
  mnemonic : String
  dst : Operand
  src : Operand
  deriving DecidableEq, Repr

def Descriptor.form (d : Descriptor) : Form :=
  ⟨d.zilog.mnemonic, ⟨d.dst, d.zilog.dst⟩, ⟨d.src, d.zilog.src⟩⟩

/-! ## The spelling of actions -/

def Pointer.name : Pointer → String
  | .hl => "hl" | .ix => "ix" | .iy => "iy"

/-- A byte operand: memory at HL is plain, memory at an index register displaced. -/
def Place.operand (x : Pointer) : Place → Operand
  | .reg r => register (regName r)
  | .cell => if x = .hl then memoryAt x.name else indexed x.name

def AluOp.operand : AluOp → Operand
  | .add | .adc | .sbc => register "a"
  | _ => .none

def Adjustment.mnemonic : Adjustment → String
  | .rlca => "rlca" | .rrca => "rrca" | .rla => "rla" | .rra => "rra" | .daa => "daa" | .cpl => "cpl" | .neg => "neg"

/-- How an action is spelled where HL stands for `x`; nothing, if it has no place there. -/
def Action.forms (x : Pointer) : Action → List Form
  | load dst src => [⟨"ld", dst.operand x, src.operand x⟩]
  | loadImmediate dst => if x = .hl ∨ dst = .cell then [⟨"ld", dst.operand x, immediate⟩] else []
  | loadPairImmediate dst => [⟨"ld", pairOperand x.name dst, immediateWord⟩]
  | storeIndirect p => [⟨"ld", memoryAt (pairName x.name p), register "a"⟩]
  | fetchIndirect p => [⟨"ld", register "a", memoryAt (pairName x.name p)⟩]
  | storeAbsolute => [⟨"ld", absolute, register "a"⟩]
  | fetchAbsolute => [⟨"ld", register "a", absolute⟩]
  | storePairAbsolute src => [⟨"ld", absolute, pairOperand x.name src⟩]
  | fetchPairAbsolute dst => [⟨"ld", pairOperand x.name dst, absolute⟩]
  | loadStackPointer => [⟨"ld", register "sp", register x.name⟩]
  | push src => [⟨"push", pairOperand x.name src, .none⟩]
  | pop dst => if dst = .sp then [] else [⟨"pop", pairOperand x.name dst, .none⟩]
  | exchangeAf => [⟨"ex", register "af", register "af'"⟩]
  | exchangeMain => [⟨"exx", .none, .none⟩]
  | exchangeDeHl => [⟨"ex", register "de", register "hl"⟩]
  | exchangeStack => [⟨"ex", memoryAt "sp", register x.name⟩]
  | storeInterruptPage => [⟨"ld", register "i", register "a"⟩]
  | storeRefresh => [⟨"ld", register "r", register "a"⟩]
  | fetchInterruptPage => [⟨"ld", register "a", register "i"⟩]
  | fetchRefresh => [⟨"ld", register "a", register "r"⟩]
  | increment dst => [⟨"inc", dst.operand x, .none⟩]
  | decrement dst => [⟨"dec", dst.operand x, .none⟩]
  | incrementPair dst => [⟨"inc", pairOperand x.name dst, .none⟩]
  | decrementPair dst => [⟨"dec", pairOperand x.name dst, .none⟩]
  | addPair src => [⟨"add", register x.name, pairOperand x.name src⟩]
  | addPairCarry src => [⟨"adc", register "hl", pairOperand x.name src⟩]
  | subtractPairCarry src => [⟨"sbc", register "hl", pairOperand x.name src⟩]
  | combine op src => [⟨aluName op, op.operand, src.operand x⟩]
  | combineImmediate op => if x = .hl then [⟨aluName op, op.operand, immediate⟩] else []
  | adjust op => [⟨op.mnemonic, .none, .none⟩]
  | setCarry => [⟨"scf", .none, .none⟩]
  | complementCarry => [⟨"ccf", .none, .none⟩]
  | rotateDigitsLeft => [⟨"rld", .none, .none⟩]
  | rotateDigitsRight => [⟨"rrd", .none, .none⟩]
  | copyBlock k =>
    [⟨if k.repeats then (if k.down then "lddr" else "ldir") else (if k.down then "ldd" else "ldi"), .none, .none⟩]
  | searchBlock k =>
    [⟨if k.repeats then (if k.down then "cpdr" else "cpir") else (if k.down then "cpd" else "cpi"), .none, .none⟩]
  | nop => [⟨"nop", .none, .none⟩]
  | halt => [⟨"halt", .none, .none⟩]
  | jump => [⟨"jp", immediateWord, .none⟩]
  | jumpIf cc => [⟨"jp", conditionOperand cc, immediateWord⟩]
  | jumpPointer => [⟨"jp", memoryAt x.name, .none⟩]
  | jumpRelative => [⟨"jr", relative, .none⟩]
  | jumpRelativeIf cc => [⟨"jr", conditionOperand cc, relative⟩]
  | countDown => [⟨"djnz", relative, .none⟩]
  | call => [⟨"call", immediateWord, .none⟩]
  | callIf cc => [⟨"call", conditionOperand cc, immediateWord⟩]
  | ret => [⟨"ret", .none, .none⟩]
  | retIf cc => [⟨"ret", conditionOperand cc, .none⟩]
  | retInterrupt => [⟨"retn", .none, .none⟩, ⟨"reti", .none, .none⟩]
  | restart v => [⟨"rst", register (vectorName (v.extractLsb' 3 3)), .none⟩]
  | setInterrupts enabled => [⟨if enabled then "ei" else "di", .none, .none⟩]
  | setInterruptMode mode => [⟨"im", register (if mode = 0 then "0" else if mode = 1 then "1" else "2"), .none⟩]
  | outputImmediate => if x = .hl then [⟨"out", port, register "a"⟩] else []
  | inputImmediate => if x = .hl then [⟨"in", register "a", port⟩] else []
  | output src => [⟨"out", memoryAt "c", register (regName src)⟩]
  | input dst => [⟨"in", register (regName dst), memoryAt "c"⟩]

/-! ## The pages -/

/-- What holds of every instruction of a page is settled by going through its slots. -/
def Slot.all (P : Descriptor → Bool) : Slot → Bool
  | instruction d => P d
  | _ => true

theorem Slot.of_all {P : Descriptor → Bool} {s : Slot} {d : Descriptor} (h : s.all P = true)
    (hd : s = .instruction d) : P d = true := by
  subst hd; exact h

def Slot.any (P : Descriptor → Bool) (s : Slot) : Bool := !s.all fun d => !P d

theorem Slot.of_any {P : Descriptor → Bool} {s : Slot} (h : s.any P = true) :
    ∃ d, s = .instruction d ∧ P d = true := by
  cases s with
  | vacant => cases h
  | lead q => cases h
  | instruction d => exact ⟨d, rfl, by rwa [any, all, Bool.not_not] at h⟩

/-- An instruction of a page is spelled as what it does is spelled there. -/
theorem form_mem_forms {p : Page} {opcode : Byte} {d : Descriptor} (h : p.slot opcode = .instruction d) :
    d.form ∈ d.action.forms p.pointer := by
  have checked : ∀ o, (p.slot o).all (fun d => d.form ∈ d.action.forms p.pointer) = true := by
    cases p <;> decide +kernel
  exact of_decide_eq_true (Slot.of_all (checked opcode) h)

end Micro80
