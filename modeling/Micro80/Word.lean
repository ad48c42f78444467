/-
  Micro80.Word — the two widths of the machine. A byte is eight bits, a word sixteen; a
  word is a high byte over a low byte (`ofBytes_high_low`, `high_ofBytes`,
  `low_ofBytes`), and a byte used as a displacement is signed.
-/

namespace Micro80

abbrev Byte := BitVec 8

abbrev Word := BitVec 16

namespace Word

def ofBytes (high low : Byte) : Word := high ++ low

def high (w : Word) : Byte := w.extractLsb' 8 8

def low (w : Word) : Byte := w.extractLsb' 0 8

/-- The word `d` away, `d` read as a signed byte; addresses wrap. -/
def displace (w : Word) (d : Byte) : Word := w + d.signExtend 16

@[simp] theorem high_ofBytes (h l : Byte) : high (ofBytes h l) = h := by
  ext i hi
  simp only [high, ofBytes, BitVec.getElem_extractLsb', BitVec.getLsbD_append]
  rw [if_neg (by omega)]
  simp [BitVec.getLsbD_eq_getElem hi]

@[simp] theorem low_ofBytes (h l : Byte) : low (ofBytes h l) = l := by
  ext i hi
  simp only [low, ofBytes, BitVec.getElem_extractLsb', BitVec.getLsbD_append]
  rw [if_pos (by omega)]
  simp [BitVec.getLsbD_eq_getElem hi]

theorem ofBytes_inj {h l h' l' : Byte} : ofBytes h l = ofBytes h' l' ↔ h = h' ∧ l = l' := by
  constructor
  · intro he
    have hhigh := congrArg high he
    have hlow := congrArg low he
    rw [high_ofBytes, high_ofBytes] at hhigh
    rw [low_ofBytes, low_ofBytes] at hlow
    exact ⟨hhigh, hlow⟩
  · rintro ⟨rfl, rfl⟩
    rfl

@[simp] theorem ofBytes_high_low (w : Word) : ofBytes (high w) (low w) = w := by
  ext i hi
  rw [ofBytes, ← BitVec.getLsbD_eq_getElem, BitVec.getLsbD_append, ← BitVec.getLsbD_eq_getElem hi]
  by_cases h : i < 8
  · simp [low, h]
  · rw [if_neg h, high, BitVec.getLsbD_extractLsb', show 8 + (i - 8) = i by omega]
    simp [show i - 8 < 8 by omega]

/-! ## The low byte -/

theorem low_eq_setWidth (w : Word) : w.low = w.setWidth 8 := by
  rw [low, BitVec.setWidth_eq_extractLsb' (by decide)]

@[simp] theorem low_setWidth (b : Byte) : low (b.setWidth 16) = b := by
  rw [low_eq_setWidth, BitVec.setWidth_setWidth_of_le b (by decide), BitVec.setWidth_eq]

theorem low_ofNat (n : Nat) : low (BitVec.ofNat 16 n) = BitVec.ofNat 8 n := by
  rw [low_eq_setWidth, BitVec.setWidth_ofNat_of_le (by decide)]

theorem low_add (x y : Word) : (x + y).low = x.low + y.low := by
  simp only [low_eq_setWidth, BitVec.setWidth_add x y (by decide : 8 ≤ 16)]

theorem low_sub (x y : Word) : (x - y).low = x.low - y.low := by
  simp only [low_eq_setWidth, BitVec.sub_eq_add_neg, BitVec.setWidth_add _ _ (by decide : 8 ≤ 16),
    BitVec.setWidth_neg_of_le (by decide : 8 ≤ 16)]

theorem low_and (x y : Word) : (x &&& y).low = x.low &&& y.low := by
  simp only [low_eq_setWidth, BitVec.setWidth_and]

theorem low_or (x y : Word) : (x ||| y).low = x.low ||| y.low := by
  simp only [low_eq_setWidth, BitVec.setWidth_or]

theorem low_xor (x y : Word) : (x ^^^ y).low = x.low ^^^ y.low := by
  simp only [low_eq_setWidth, BitVec.setWidth_xor]

/-! ## Numbers -/

theorem toNat_ofBytes (h l : Byte) : (ofBytes h l).toNat = 256 * h.toNat + l.toNat := by
  rw [ofBytes, BitVec.toNat_append, Nat.shiftLeft_eq, Nat.mul_comm, ← Nat.two_pow_add_eq_or_of_lt l.isLt]

theorem toNat_eq_high_low (w : Word) : w.toNat = 256 * w.high.toNat + w.low.toNat := by
  rw [← toNat_ofBytes, ofBytes_high_low]

theorem msb_high (w : Word) : w.high.msb = w.msb := by
  have hlow := w.low.isLt
  rw [BitVec.msb_eq_decide, BitVec.msb_eq_decide, decide_eq_decide, w.toNat_eq_high_low]
  omega

theorem msb_ofBytes (h l : Byte) : (ofBytes h l).msb = h.msb := by
  rw [← msb_high, high_ofBytes]

end Word

end Micro80
