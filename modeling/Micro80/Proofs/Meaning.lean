/-
  Micro80.Proofs.Meaning — every action that moves or combines data does what its text
  means, one lemma for an action; with `form_mem_forms`, so does every instruction of
  every page.

  Proved, for every state and every instruction that decodes:
  - `step_eq_effect`: a step does what its text means and goes on to the next
    instruction at the full cost. The refresh register has counted the opcode bytes by
    the time the text is read.
-/

import Micro80.Proofs.Operands

namespace Micro80

open Bus (Flat)
open Encoding (regName pairName pairOperand aluName)
open Operand (register memoryAt immediate immediateWord port absolute)

namespace Action

open Form

variable (s : Site) (m : Machine Flat)

/-! ## Bytes -/

theorem effect_load (dst src : Place) :
    effect ⟨"ld", dst.operand s.pointer, src.operand s.pointer⟩ s.operands m = some ((load dst src).perform s m).2 := by
  have hw : isWide ⟨"ld", dst.operand s.pointer, src.operand s.pointer⟩ = false :=
    isWide_of_place rfl (src.isPair_operand s.pointer)
  rw [effect_byte (by simp) hw (target_place rfl) (locate_place hw s m src) (src.fetch_location s m) rfl,
    flags_ld (src.operand_not_mem s.pointer), Word.low_setWidth]
  simp only [perform, Effect.bind_apply, Effect.get_apply, Effect.set_apply, Effect.pure_apply]

theorem effect_loadImmediate {dst : Place} (h : s.pointer = .hl ∨ dst = .cell) :
    effect ⟨"ld", dst.operand s.pointer, immediate⟩ s.operands m = some ((loadImmediate dst).perform s m).2 := by
  have hw : isWide ⟨"ld", dst.operand s.pointer, immediate⟩ = false := isWide_of_place rfl rfl
  have hd : isDisplaced ⟨"ld", dst.operand s.pointer, immediate⟩ = !decide (s.pointer = .hl) := by
    generalize s.pointer = x at h
    rcases h with rfl | rfl
    · cases dst <;> rfl
    · cases x <;> rfl
  rw [effect_byte (by simp) hw (target_place rfl) rfl rfl rfl,
    flags_ld (by decide), Word.low_setWidth, hd]
  simp only [perform, Effect.bind_apply, Effect.immediate_apply, Effect.set_apply, Effect.pure_apply]
  by_cases hx : s.pointer = .hl <;> simp [hx]

theorem effect_fetchIndirect (p : Pair) :
    effect ⟨"ld", register "a", memoryAt (pairName s.pointer.name p)⟩ s.operands m =
      some ((fetchIndirect p).perform s m).2 := by
  rw [effect_byte (p := .reg .a) (by simp) rfl rfl (locate_memoryAt _ _ m s.pointer p) rfl rfl,
    flags_ld (by simp [memoryAt, register]), Word.low_setWidth]
  rfl

theorem effect_fetchAbsolute :
    effect ⟨"ld", register "a", absolute⟩ s.operands m = some (fetchAbsolute.perform s m).2 := by
  rw [effect_byte (p := .reg .a) (by simp) rfl rfl rfl rfl rfl,
    flags_ld (by decide), Word.low_setWidth]
  rfl

theorem effect_storeIndirect (p : Pair) :
    effect ⟨"ld", memoryAt (pairName s.pointer.name p), register "a"⟩ s.operands m =
      some ((storeIndirect p).perform s m).2 := by
  have hw : isWide ⟨"ld", memoryAt (pairName s.pointer.name p), register "a"⟩ = false := rfl
  rw [effect_eq (by simp) (locate_memoryAt _ _ m s.pointer p) rfl rfl rfl rfl,
    flags_ld (by decide)]
  simp only [Form.memory, hw, Bool.false_eq_true, if_false, Location.store, Word.low_setWidth]
  rfl

theorem effect_storeAbsolute :
    effect ⟨"ld", absolute, register "a"⟩ s.operands m = some (storeAbsolute.perform s m).2 := by
  rw [effect_eq (l := .cell (m.bus.memory.getWord s.operands)) (by simp) rfl rfl rfl rfl rfl,
    flags_ld (by decide)]
  simp only [Location.store, Word.low_setWidth]
  rfl

theorem effect_storeInterruptPage :
    effect ⟨"ld", register "i", register "a"⟩ s.operands m = some (storeInterruptPage.perform s m).2 := by
  rw [effect_eq (l := .register "i") (by simp) rfl rfl rfl rfl rfl,
    flags_ld (by decide)]
  simp only [Location.store, Registers.setNamed?_i, Option.map_some, Word.low_setWidth]
  rfl

theorem effect_storeRefresh :
    effect ⟨"ld", register "r", register "a"⟩ s.operands m = some (storeRefresh.perform s m).2 := by
  rw [effect_eq (l := .register "r") (by simp) rfl rfl rfl rfl rfl,
    flags_ld (by decide)]
  simp only [Location.store, Registers.setNamed?_r, Option.map_some, Word.low_setWidth]
  rfl

/-- Loads from I and R have flags of their own. -/
theorem effect_fetchSpecial {name : String} {special : Registers → Byte} (hn : name = "i" ∨ name = "r")
    (hs : m.regs.named? name = some ((special m.regs).setWidth 16)) :
    effect ⟨"ld", register "a", register name⟩ s.operands m = some (fetchSpecial special m).2 := by
  have hsrc : register name = register "i" ∨ register name = register "r" :=
    hn.imp (congrArg register) (congrArg register)
  have hw : isWide ⟨"ld", register "a", register name⟩ = false := by rcases hn with rfl | rfl <;> rfl
  rw [effect_byte (p := .reg .a) (k := .register name) (by simp) hw rfl rfl hs rfl, Word.low_setWidth]
  simp only [flags, if_pos hsrc, Word.low_setWidth]
  rfl

theorem effect_increment (dst : Place) :
    effect ⟨"inc", dst.operand s.pointer, .none⟩ s.operands m = some ((increment dst).perform s m).2 := by
  have hw : isWide ⟨"inc", dst.operand s.pointer, .none⟩ = false := isWide_of_place rfl rfl
  rw [effect_byte (by simp) hw (target_place rfl) rfl rfl rfl]
  simp only [perform, Effect.bind_apply, Effect.update_apply, Effect.pure_apply, flags, hw, Word.low_add,
    Word.low_setWidth]
  rfl

theorem effect_decrement (dst : Place) :
    effect ⟨"dec", dst.operand s.pointer, .none⟩ s.operands m = some ((decrement dst).perform s m).2 := by
  have hw : isWide ⟨"dec", dst.operand s.pointer, .none⟩ = false := isWide_of_place rfl rfl
  rw [effect_byte (by simp) hw (target_place rfl) rfl rfl rfl]
  simp only [perform, Effect.bind_apply, Effect.update_apply, Effect.pure_apply, flags, hw, Word.low_sub,
    Word.low_setWidth]
  rfl

theorem effect_combine (op : AluOp) (src : Place) :
    effect ⟨aluName op, op.operand, src.operand s.pointer⟩ s.operands m = some ((combine op src).perform s m).2 := by
  have hw : isWide ⟨aluName op, op.operand, src.operand s.pointer⟩ = false := by
    simp only [isWide, Place.isPair_operand, Bool.or_false]
    cases op <;> rfl
  have ht : target ⟨aluName op, op.operand, src.operand s.pointer⟩ = Place.operand s.pointer (.reg .a) := by
    cases op <;> rfl
  obtain ⟨w, hv, hl⟩ := result_aluName op m.regs.f m.regs.a (m.byte s src)
  rw [effect_byte (p := .reg .a) (by cases op <;> simp [aluName]) hw ht (locate_place hw s m src)
    (src.fetch_location s m) hv, hl, show m.byte s (.reg .a) = m.regs.a from rfl, flags_aluName rfl hw]
  simp only [perform, Effect.bind_apply, Effect.get_apply, Effect.accumulate_apply, Effect.pure_apply]
  rfl

theorem effect_combineImmediate (op : AluOp) (h : s.pointer = .hl) :
    effect ⟨aluName op, op.operand, immediate⟩ s.operands m = some ((combineImmediate op).perform s m).2 := by
  have hw : isWide ⟨aluName op, op.operand, immediate⟩ = false := by cases op <;> rfl
  have hd : isDisplaced ⟨aluName op, op.operand, immediate⟩ = false := by cases op <;> rfl
  have ht : target ⟨aluName op, op.operand, immediate⟩ = Place.operand s.pointer (.reg .a) := by
    cases op <;> rfl
  obtain ⟨w, hv, hl⟩ := result_aluName op m.regs.f m.regs.a (m.bus.memory.get s.operands)
  rw [effect_byte (p := .reg .a) (by cases op <;> simp [aluName]) hw ht (locate_immediate hd s.operands m) rfl hv, hl,
    show m.byte s (.reg .a) = m.regs.a from rfl, flags_aluName rfl hw]
  simp only [perform, Effect.bind_apply, Effect.immediate_apply_hl m h, Effect.accumulate_apply, Effect.pure_apply]
  rfl

/-! ## Pairs -/

theorem effect_loadPairImmediate (dst : Pair) :
    effect ⟨"ld", pairOperand s.pointer.name dst, immediateWord⟩ s.operands m =
      some ((loadPairImmediate dst).perform s m).2 := by
  rw [effect_pair (by simp) rfl rfl rfl rfl,
    flags_ld (by decide)]
  rfl

theorem effect_fetchPairAbsolute (dst : Pair) :
    effect ⟨"ld", pairOperand s.pointer.name dst, absolute⟩ s.operands m =
      some ((fetchPairAbsolute dst).perform s m).2 := by
  have hw : isWide ⟨"ld", pairOperand s.pointer.name dst, absolute⟩ = true := isWide_of_dst rfl
  rw [effect_pair (by simp) rfl (locate_absolute hw s.operands m) rfl rfl,
    flags_ld (by decide)]
  rfl

theorem effect_storePairAbsolute (src : Pair) :
    effect ⟨"ld", absolute, pairOperand s.pointer.name src⟩ s.operands m =
      some ((storePairAbsolute src).perform s m).2 := by
  have hw : isWide ⟨"ld", absolute, pairOperand s.pointer.name src⟩ = true := isWide_of_src rfl
  rw [effect_eq (by simp) (locate_absolute hw s.operands m) (locate_pair _ _ m s.pointer src) rfl
    (Location.fetch_pair m s.pointer src) rfl, flags_ld (pairOperand_not_mem s.pointer src)]
  rfl

theorem effect_loadStackPointer :
    effect ⟨"ld", register "sp", register s.pointer.name⟩ s.operands m = some (loadStackPointer.perform s m).2 := by
  rw [effect_pair (x := s.pointer) (p := .sp) (by simp) rfl (locate_pair _ _ m s.pointer .hl)
    (Location.fetch_pair m s.pointer .hl) rfl,
    flags_ld (o := register s.pointer.name) (pairOperand_not_mem s.pointer .hl)]
  rfl

theorem effect_incrementPair (dst : Pair) :
    effect ⟨"inc", pairOperand s.pointer.name dst, .none⟩ s.operands m = some ((incrementPair dst).perform s m).2 := by
  have hw : isWide ⟨"inc", pairOperand s.pointer.name dst, .none⟩ = true := isWide_of_dst rfl
  rw [effect_pair (by simp) rfl rfl rfl rfl]
  simp only [flags, hw]
  rfl

theorem effect_decrementPair (dst : Pair) :
    effect ⟨"dec", pairOperand s.pointer.name dst, .none⟩ s.operands m = some ((decrementPair dst).perform s m).2 := by
  have hw : isWide ⟨"dec", pairOperand s.pointer.name dst, .none⟩ = true := isWide_of_dst rfl
  rw [effect_pair (by simp) rfl rfl rfl rfl]
  simp only [flags, hw]
  rfl

/-- Sums of pairs: the first is the pointer or HL, and takes the sum. -/
theorem effect_sumPairs {name : String} {g : Flags → Word → Word → Word × Flags} {x : Pointer} {src : Pair}
    (hn : name ∉ ["push", "pop", "ex"])
    (hv : result name m.regs.f.c (m.regs.pointer x) (m.regs.pair s.pointer src) =
      some (g m.regs.f (m.regs.pointer x) (m.regs.pair s.pointer src)).1)
    (hg : flags ⟨name, register x.name, pairOperand s.pointer.name src⟩ m.regs (m.regs.pointer x)
      (m.regs.pair s.pointer src) = (g m.regs.f (m.regs.pointer x) (m.regs.pair s.pointer src)).2) :
    effect ⟨name, register x.name, pairOperand s.pointer.name src⟩ s.operands m =
      some (sumPairs g s x src m).2 := by
  rw [effect_pair (x := x) (p := .hl) hn rfl (locate_pair _ _ m s.pointer src) (Location.fetch_pair m s.pointer src) hv]
  rw [show m.regs.pair x .hl = m.regs.pointer x from rfl, hg]
  rfl

theorem effect_addPair (src : Pair) :
    effect ⟨"add", register s.pointer.name, pairOperand s.pointer.name src⟩ s.operands m =
      some ((addPair src).perform s m).2 := by
  have hw : isWide ⟨"add", register s.pointer.name, pairOperand s.pointer.name src⟩ = true := isWide_of_src rfl
  rw [effect_sumPairs s m (g := Alu.addWord) (by simp) rfl (by simp only [flags, hw])]
  rfl

theorem effect_addPairCarry (src : Pair) :
    effect ⟨"adc", register "hl", pairOperand s.pointer.name src⟩ s.operands m =
      some ((addPairCarry src).perform s m).2 := by
  have hw : isWide ⟨"adc", register "hl", pairOperand s.pointer.name src⟩ = true := isWide_of_src rfl
  exact effect_sumPairs s m (g := Alu.adcWord) (x := .hl) (by simp) rfl rfl

theorem effect_subtractPairCarry (src : Pair) :
    effect ⟨"sbc", register "hl", pairOperand s.pointer.name src⟩ s.operands m =
      some ((subtractPairCarry src).perform s m).2 := by
  have hw : isWide ⟨"sbc", register "hl", pairOperand s.pointer.name src⟩ = true := isWide_of_src rfl
  exact effect_sumPairs s m (g := Alu.sbcWord) (x := .hl) (by simp) rfl rfl

/-! ## Stack and exchanges -/

theorem effect_push (src : Pair) :
    effect ⟨"push", pairOperand s.pointer.name src, .none⟩ s.operands m = some ((push src).perform s m).2 := by
  simp only [perform, Effect.bind_apply, Effect.regs_apply, Effect.push_apply, Effect.pure_apply]
  simp only [effect, locate_pair, Location.fetch_pair, Location.store, Option.bind_eq_bind, Option.bind_some]

theorem effect_pop (dst : Pair) :
    effect ⟨"pop", pairOperand s.pointer.name dst, .none⟩ s.operands m = some ((pop dst).perform s m).2 := by
  simp only [perform, Effect.bind_apply, Effect.pop_apply, Effect.modifyRegs_apply, Effect.pure_apply]
  simp only [effect, locate_pair, Location.fetch, Location.store_pair, Option.bind_eq_bind, Option.bind_some]

theorem effect_exchangeAf :
    effect ⟨"ex", register "af", register "af'"⟩ s.operands m = some (exchangeAf.perform s m).2 := by
  rw [effect_exchange (k := .register "af'") (y := m.regs.afAlt) rfl (locate_pair _ _ m .hl .af) rfl
    (Location.fetch_pair m .hl .af) rfl (Location.store_pair m .hl .af _)]
  simp only [Location.store, Registers.setNamed?_afAlt, Option.map_some]
  rfl

theorem effect_exchangeDeHl :
    effect ⟨"ex", register "de", register "hl"⟩ s.operands m = some (exchangeDeHl.perform s m).2 := by
  rw [effect_exchange rfl (locate_pair _ _ m .hl .de) (locate_pair _ _ m .hl .hl) (Location.fetch_pair m .hl .de)
    (Location.fetch_pair m .hl .hl) (Location.store_pair m .hl .de _), Location.store_pair]
  rfl

theorem effect_exchangeStack :
    effect ⟨"ex", memoryAt "sp", register s.pointer.name⟩ s.operands m = some (exchangeStack.perform s m).2 := by
  have hw : isWide ⟨"ex", memoryAt "sp", register s.pointer.name⟩ = true :=
    isWide_of_src (x := s.pointer) (p := .hl) rfl
  have hd : locate ⟨"ex", memoryAt "sp", register s.pointer.name⟩ s.operands m (memoryAt "sp") =
      some (.cells m.regs.sp) := by
    have h : locate ⟨"ex", memoryAt "sp", register s.pointer.name⟩ s.operands m (memoryAt "sp") =
      some (Form.memory ⟨"ex", memoryAt "sp", register s.pointer.name⟩ m.regs.sp) := rfl
    rw [h, memory, if_pos hw]
  rw [effect_exchange rfl hd (locate_pair _ _ m s.pointer .hl) rfl (Location.fetch_pair m s.pointer .hl) rfl,
    Location.store_pair]
  rfl

/-! ## Ports -/

theorem effect_outputImmediate (h : s.pointer = .hl) :
    effect ⟨"out", port, register "a"⟩ s.operands m = some (outputImmediate.perform s m).2 := by
  rw [effect_eq (l := .port (m.bus.memory.get s.operands)) (by simp) rfl rfl rfl rfl rfl]
  simp only [perform, Effect.bind_apply, Effect.immediate_apply_hl m h, Effect.regs_apply, Effect.output_apply,
    Effect.pure_apply, Location.store, Word.low_setWidth]
  rfl

theorem effect_output (src : Reg) :
    effect ⟨"out", memoryAt "c", register (regName src)⟩ s.operands m = some ((output src).perform s m).2 := by
  rw [effect_eq (l := .port m.regs.c) (k := .register (regName src)) (by simp) rfl rfl rfl
    (Registers.named?_regName m.regs src) rfl]
  simp only [Location.store, Word.low_setWidth]
  rfl

theorem effect_inputImmediate (h : s.pointer = .hl) :
    effect ⟨"in", register "a", port⟩ s.operands m = some (inputImmediate.perform s m).2 := by
  rw [effect_byte (p := .reg .a) (k := .port (m.bus.memory.get s.operands)) (by simp) rfl rfl rfl rfl rfl,
    Word.low_setWidth]
  simp only [perform, Effect.bind_apply, Effect.immediate_apply_hl m h, Effect.input_apply, Effect.modifyRegs_apply,
    Effect.pure_apply]
  rfl

theorem effect_input (dst : Reg) :
    effect ⟨"in", register (regName dst), memoryAt "c"⟩ s.operands m = some ((input dst).perform s m).2 := by
  have hw : isWide ⟨"in", register (regName dst), memoryAt "c"⟩ = false := by
    cases dst <;> rfl
  rw [effect_byte (p := .reg dst) (k := .port m.regs.c) (by simp) hw (target_place rfl) rfl rfl rfl,
    Word.low_setWidth]
  simp only [flags, if_true, Word.low_setWidth]
  rfl

/-! ## Every action -/

/-- An action spelled with the mnemonic of a transfer does what its form says, and goes nowhere. -/
theorem effect_eq_perform {a : Action} {f : Form} (hf : f ∈ a.forms s.pointer) (ht : f.mnemonic ∈ transfers) :
    f.effect s.operands m = some (a.perform s m).2 ∧ (a.perform s m).1 = .next := by
  cases a with
  | load dst src => cases List.mem_singleton.mp hf; exact ⟨effect_load s m dst src, rfl⟩
  | loadImmediate dst =>
    obtain ⟨h, hf⟩ := List.mem_ite_nil_right.mp hf
    cases List.mem_singleton.mp hf
    exact ⟨effect_loadImmediate s m h, rfl⟩
  | loadPairImmediate dst => cases List.mem_singleton.mp hf; exact ⟨effect_loadPairImmediate s m dst, rfl⟩
  | storeIndirect p => cases List.mem_singleton.mp hf; exact ⟨effect_storeIndirect s m p, rfl⟩
  | fetchIndirect p => cases List.mem_singleton.mp hf; exact ⟨effect_fetchIndirect s m p, rfl⟩
  | storeAbsolute => cases List.mem_singleton.mp hf; exact ⟨effect_storeAbsolute s m, rfl⟩
  | fetchAbsolute => cases List.mem_singleton.mp hf; exact ⟨effect_fetchAbsolute s m, rfl⟩
  | storePairAbsolute src => cases List.mem_singleton.mp hf; exact ⟨effect_storePairAbsolute s m src, rfl⟩
  | fetchPairAbsolute dst => cases List.mem_singleton.mp hf; exact ⟨effect_fetchPairAbsolute s m dst, rfl⟩
  | loadStackPointer => cases List.mem_singleton.mp hf; exact ⟨effect_loadStackPointer s m, rfl⟩
  | push src => cases List.mem_singleton.mp hf; exact ⟨effect_push s m src, rfl⟩
  | pop dst =>
    cases List.mem_singleton.mp (List.mem_ite_nil_left.mp hf).2
    exact ⟨effect_pop s m dst, rfl⟩
  | exchangeAf => cases List.mem_singleton.mp hf; exact ⟨effect_exchangeAf s m, rfl⟩
  | exchangeDeHl => cases List.mem_singleton.mp hf; exact ⟨effect_exchangeDeHl s m, rfl⟩
  | exchangeStack => cases List.mem_singleton.mp hf; exact ⟨effect_exchangeStack s m, rfl⟩
  | storeInterruptPage => cases List.mem_singleton.mp hf; exact ⟨effect_storeInterruptPage s m, rfl⟩
  | storeRefresh => cases List.mem_singleton.mp hf; exact ⟨effect_storeRefresh s m, rfl⟩
  | fetchInterruptPage => cases List.mem_singleton.mp hf; exact ⟨effect_fetchSpecial s m (.inl rfl) rfl, rfl⟩
  | fetchRefresh => cases List.mem_singleton.mp hf; exact ⟨effect_fetchSpecial s m (.inr rfl) rfl, rfl⟩
  | increment dst => cases List.mem_singleton.mp hf; exact ⟨effect_increment s m dst, rfl⟩
  | decrement dst => cases List.mem_singleton.mp hf; exact ⟨effect_decrement s m dst, rfl⟩
  | incrementPair dst => cases List.mem_singleton.mp hf; exact ⟨effect_incrementPair s m dst, rfl⟩
  | decrementPair dst => cases List.mem_singleton.mp hf; exact ⟨effect_decrementPair s m dst, rfl⟩
  | addPair src =>
    cases List.mem_singleton.mp hf
    exact ⟨effect_addPair s m src, rfl⟩
  | addPairCarry src =>
    cases List.mem_singleton.mp hf
    exact ⟨effect_addPairCarry s m src, rfl⟩
  | subtractPairCarry src =>
    cases List.mem_singleton.mp hf
    exact ⟨effect_subtractPairCarry s m src, rfl⟩
  | combine op src => cases List.mem_singleton.mp hf; exact ⟨effect_combine s m op src, rfl⟩
  | combineImmediate op =>
    obtain ⟨h, hf⟩ := List.mem_ite_nil_right.mp hf
    cases List.mem_singleton.mp hf
    exact ⟨effect_combineImmediate s m op h, rfl⟩
  | outputImmediate =>
    obtain ⟨h, hf⟩ := List.mem_ite_nil_right.mp hf
    cases List.mem_singleton.mp hf
    exact ⟨effect_outputImmediate s m h, rfl⟩
  | inputImmediate =>
    obtain ⟨h, hf⟩ := List.mem_ite_nil_right.mp hf
    cases List.mem_singleton.mp hf
    exact ⟨effect_inputImmediate s m h, rfl⟩
  | output src => cases List.mem_singleton.mp hf; exact ⟨effect_output s m src, rfl⟩
  | input dst => cases List.mem_singleton.mp hf; exact ⟨effect_input s m dst, rfl⟩
  | adjust op => cases List.mem_singleton.mp hf; cases op <;> simp [Adjustment.mnemonic, transfers] at ht
  | copyBlock k =>
    obtain ⟨down, repeats⟩ := k
    cases List.mem_singleton.mp hf
    cases down <;> cases repeats <;> simp [transfers] at ht
  | searchBlock k =>
    obtain ⟨down, repeats⟩ := k
    cases List.mem_singleton.mp hf
    cases down <;> cases repeats <;> simp [transfers] at ht
  | setInterrupts e => cases List.mem_singleton.mp hf; cases e <;> simp [transfers] at ht
  | retInterrupt =>
    simp only [forms, List.mem_cons, List.not_mem_nil, or_false] at hf
    rcases hf with rfl | rfl <;> simp [transfers] at ht
  | _ => cases List.mem_singleton.mp hf; simp [transfers] at ht

end Action

namespace Cpu

open Form

/-- A step on an instruction that moves or combines data does what the Zilog text says and
    goes on to the next instruction. -/
theorem step_eq_effect {c : Cpu Flat} {i : Instruction} (h : (decode c.dialect c.regs.pc c.bus).1 = .ok i)
    (ht : i.descriptor.form.mnemonic ∈ transfers) :
    ∃ m, i.descriptor.form.effect (c.regs.pc + BitVec.ofNat 16 i.page.width) ⟨c.regs.refresh i.page.width, c.bus⟩ =
        some m ∧
      c.step = (none, ⟨{ m.regs with pc := c.regs.pc + BitVec.ofNat 16 i.descriptor.length },
        c.cycles + i.descriptor.cycles, c.dialect, m.bus⟩) := by
  have hf := form_mem_forms (slot_of_decode h)
  obtain ⟨he, ho⟩ := Action.effect_eq_perform (i.site c.regs.pc) ⟨c.regs.refresh i.page.width, c.bus⟩ hf ht
  exact ⟨_, he, step_of_decode h (Prod.ext ho rfl)⟩

/-- With IX at the bottom of memory, `ld (ix-1),h` stores H at the top. -/
theorem step_eq_effect_indexed :
    let c : Cpu Flat := ⟨{ h := 0x12 }, 0, .z80, { memory := Memory.zero.load 0 [0xDD, 0x74, 0xFF] }⟩
    let d := Descriptor.zilogOnly "ld" (.indexed "ix") (.register "h") 3 19 (.load .cell (.reg .h))
    (decode c.dialect c.regs.pc c.bus).1 = .ok ⟨d, .dd⟩ ∧ ∃ m, m.bus.memory.get 0xFFFF = 0x12 ∧
      d.form.effect 2 ⟨c.regs.refresh 2, c.bus⟩ = some m ∧
      c.step = (none, ⟨{ m.regs with pc := 3 }, 19, .z80, m.bus⟩) := by
  intro c d
  have h₀ : c.bus.memory.get 0 = 0xDD := by simp [c, Memory.load, Memory.get_set]
  have h₁ : c.bus.memory.get (0 + 1) = 0x74 := by simp [c, Memory.load, Memory.get_set]
  have h₂ : c.bus.memory.get 2 = 0xFF := by simp [c, Memory.load]
  have h : (decode c.dialect c.regs.pc c.bus).1 = .ok ⟨d, .dd⟩ :=
    decode_of_lead (by rw [h₀]; decide +kernel) (by rw [h₁]; decide +kernel)
  obtain ⟨m, hm, hs⟩ := step_eq_effect (c := c) h (by decide)
  refine ⟨h, m, ?_, hm, hs⟩
  have he : d.form.effect 2 ⟨c.regs.refresh 2, c.bus⟩ =
      some ⟨c.regs.refresh 2, c.bus.withMemory (c.bus.memory.set (Word.displace 0 (c.bus.memory.get 2)) 0x12)⟩ := rfl
  rw [h₂] at he
  cases he.symm.trans hm
  exact Memory.get_set_self _ _ _

end Cpu

end Micro80
