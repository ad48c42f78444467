/-
  Micro80.Encoding.Name — the bit fields of an opcode and the names they go by in the
  two spellings: registers, pairs, conditions, operations on the accumulator, restart
  vectors.
-/

import Micro80.Instruction.Descriptor

namespace Micro80.Encoding

/-! ## Bit fields -/

def quarter (opcode : Byte) : BitVec 2 := opcode.extractLsb' 6 2

def upper (opcode : Byte) : BitVec 3 := opcode.extractLsb' 3 3

def lower (opcode : Byte) : BitVec 3 := opcode.extractLsb' 0 3

def pairBits (upper : BitVec 3) : BitVec 2 := upper.extractLsb' 1 2

/-! ## Names -/

def regName : Reg → String
  | .b => "b" | .c => "c" | .d => "d" | .e => "e" | .h => "h" | .l => "l" | .a => "a"

def placeIntel : Place → String
  | .reg r => regName r
  | .cell => "m"

def placeOperand : Place → Operand
  | .reg r => .register (regName r)
  | .cell => .memoryAt "hl"

/-- Zilog names of the pairs, `hl` being called `pointer`. -/
def pairName (pointer : String) : Pair → String
  | .bc => "bc" | .de => "de" | .hl => pointer | .sp => "sp" | .af => "af"

def pairOperand (pointer : String) (p : Pair) : Operand := .register (pairName pointer p)

def pairIntel : Pair → String
  | .bc => "b" | .de => "d" | .hl => "h" | .sp => "sp" | .af => "psw"

def conditionOperand (cc : Condition) : Operand :=
  ⟨.condition, match cc with
    | .nz => "nz" | .z => "z" | .nc => "nc" | .c => "c" | .po => "po" | .pe => "pe" | .p => "p" | .m => "m"⟩

def jumpIntel : Condition → String
  | .nz => "jnz" | .z => "jz" | .nc => "jnc" | .c => "jc" | .po => "jpo" | .pe => "jpe" | .p => "jp" | .m => "jm"

def callIntel : Condition → String
  | .nz => "cnz" | .z => "cz" | .nc => "cnc" | .c => "cc" | .po => "cpo" | .pe => "cpe" | .p => "cp" | .m => "cm"

def retIntel : Condition → String
  | .nz => "rnz" | .z => "rz" | .nc => "rnc" | .c => "rc" | .po => "rpo" | .pe => "rpe" | .p => "rp" | .m => "rm"

def aluName : AluOp → String
  | .add => "add" | .adc => "adc" | .sub => "sub" | .sbc => "sbc"
  | .and => "and" | .xor => "xor" | .or => "or" | .cp => "cp"

def aluIntel : AluOp → String
  | .add => "add" | .adc => "adc" | .sub => "sub" | .sbc => "sbb"
  | .and => "ana" | .xor => "xra" | .or => "ora" | .cp => "cmp"

def aluImmediateIntel : AluOp → String
  | .add => "adi" | .adc => "aci" | .sub => "sui" | .sbc => "sbi"
  | .and => "ani" | .xor => "xri" | .or => "ori" | .cp => "cpi"

/-- Zilog syntax names the accumulator in operations 0, 1 and 3 and in no other number. -/
def namesAccumulator (operation : Nat) : Bool := operation == 0 || operation == 1 || operation == 3

def aluDestination (code : BitVec 3) : Operand := if namesAccumulator code.toNat then .register "a" else .none

def vectorName : BitVec 3 → String
  | 0 => "$00" | 1 => "$08" | 2 => "$10" | 3 => "$18" | 4 => "$20" | 5 => "$28" | 6 => "$30" | 7 => "$38"

def vectorIntel : BitVec 3 → String
  | 0 => "0" | 1 => "1" | 2 => "2" | 3 => "3" | 4 => "4" | 5 => "5" | 6 => "6" | 7 => "7"

end Micro80.Encoding
