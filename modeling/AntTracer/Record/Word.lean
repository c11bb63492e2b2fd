import Mathlib.Tactic

/-!
# Words, record types and masks

The storage log is a stream of 32-bit words. A word whose top bit is set
starts a record and carries a five-bit type and 26 bits of payload; a word
whose top bit is clear continues one and carries 31. This file fixes those
constants and the one lemma about masks the packing code is read through.
-/

namespace AntTracer

/-- A 32-bit word, the `u32` of the source. -/
abbrev Word := BitVec 32

/-- An 8-bit byte, the `u8` of the source. -/
abbrev Byte := BitVec 8

/-- What an erased flash word reads. -/
abbrev erasedWord : Word := 0xffffffff#32

/-! ## Record types -/

/-- `RT_ZERO`: no operation. -/
abbrev rtZero : Word := 0x00#32
/-- `RT_CONFIG`: configuration structure. -/
abbrev rtConfig : Word := 0x01#32
/-- `RT_SU_HDR`: software update header. -/
abbrev rtSuHdr : Word := 0x0c#32
/-- `RT_SU_DATA`: software update chunk. -/
abbrev rtSuData : Word := 0x0d#32
/-- `RT_SU_EXEC`: software update "execute". -/
abbrev rtSuExec : Word := 0x0e#32
/-- `RT_SEQUENCE`: storage manager sequence record. -/
abbrev rtSequence : Word := 0x1f#32
/-- `RT_MASK`. -/
abbrev rtMask : Word := 0x1f#32
/-- `RT_SHIFT`: the bit position of the type, and the payload bits of a
first word. -/
abbrev rtShift : ℕ := 26
/-- `RD_MASK`: the payload of a first word. -/
abbrev rdMask : Word := 0x03ffffff#32
/-- The bit that marks the first word of a record. -/
abbrev recordBit : Word := 0x80000000#32
/-- `ARRAY_SIZE(buffer)`. -/
abbrev bufferSize : ℕ := 40

/-- The type field of a record's first word. -/
def recordType (w : Word) : Word := (w >>> rtShift) &&& rtMask

/-- The test `w & 0x80000000` of the readers. -/
def IsStart (w : Word) : Prop := w &&& recordBit ≠ 0#32

instance : DecidablePred IsStart := fun w => inferInstanceAs (Decidable (w &&& recordBit ≠ 0#32))

theorem isStart_iff_msb {w : Word} : IsStart w ↔ w.msb = true := by
  have h : w &&& recordBit = if w.msb then recordBit else 0#32 := by
    ext i hi
    by_cases h31 : i = 31
    · subst h31
      by_cases hm : w.msb <;> simp_all [BitVec.msb_eq_getLsbD_last]
    · have : recordBit.getLsbD i = false := by
        revert i; decide
      by_cases hm : w.msb <;> simp_all [← BitVec.getLsbD_eq_getElem]
  unfold IsStart
  rw [h]
  by_cases hm : w.msb
  · simpa [hm] using (by decide : recordBit ≠ 0#32)
  · simp [hm]

/-- An erased word has its top bit set. -/
theorem isStart_erasedWord : IsStart erasedWord := by decide

theorem ne_erasedWord_of_not_isStart {w : Word} (h : ¬ IsStart w) : w ≠ erasedWord := by
  rintro rfl
  exact h isStart_erasedWord

/-! ## Masks -/

/-- `(1 << n) - 1`. -/
def mask (n : ℕ) : Word := (1#32 <<< n) - 1#32

theorem mask_eq_ofNat {n : ℕ} (h : n ≤ 32) : mask n = BitVec.ofNat 32 (2 ^ n - 1) := by
  have hle : 2 ^ n ≤ 2 ^ 32 := Nat.pow_le_pow_right (by omega) h
  have hpos : 0 < 2 ^ n := Nat.two_pow_pos n
  apply BitVec.eq_of_toNat_eq
  simp only [mask, BitVec.toNat_sub, BitVec.toNat_shiftLeft, BitVec.toNat_ofNat, Nat.shiftLeft_eq]
  omega

/-- A mask holds exactly its low bits. -/
theorem getLsbD_mask {n i : ℕ} (h : n ≤ 32) : (mask n).getLsbD i = decide (i < n) := by
  rw [mask_eq_ofNat h, BitVec.getLsbD_ofNat, Nat.testBit_two_pow_sub_one]
  by_cases hi : i < n
  · simp [hi]; omega
  · simp [hi]

/-- Masking keeps the value modulo a power of two. -/
theorem toNat_and_mask {n : ℕ} (h : n ≤ 32) (w : Word) :
    (w &&& mask n).toNat = w.toNat % 2 ^ n := by
  apply Nat.eq_of_testBit_eq
  intro i
  rw [BitVec.testBit_toNat, BitVec.getLsbD_and, getLsbD_mask h, Nat.testBit_mod_two_pow,
    BitVec.testBit_toNat, Bool.and_comm]

end AntTracer
