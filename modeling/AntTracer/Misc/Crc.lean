import AntTracer.App.Config
import AntTracer.Library.ReflectedCrc

/-!
# The CRC of `crc.c`

`CRC` and `CRC8` step through the table a byte at a time, and `CRC16` and
`CRC32` take their argument apart, low byte first. The register they stand for
is the reflected CRC with the polynomial of `POLY`, one data bit at a time,
complemented before the first bit and after the last.
-/

namespace AntTracer

namespace App

open ReflectedCrc

/-! ## The source -/

/-- `POLY`. -/
abbrev crcPoly : Word := 0x82f63b78#32

/-- `CRC_t`. -/
structure CrcState where
  crc : Word
  deriving DecidableEq, Repr

/-- `CRCInit`. -/
def crcInit : CrcState := ⟨0#32⟩

/-- `CRC`. -/
def CrcState.add (s : CrcState) (data : List Byte) : CrcState := ⟨App.crc s.crc data⟩

/-- `CRC8`. -/
def CrcState.add8 (s : CrcState) (data : Word) : CrcState :=
  let c := ~~~s.crc
  ⟨~~~((c >>> 8) ^^^ crcTable.getD ((c ^^^ data) &&& 0xff#32).toNat 0#32)⟩

/-- `CRC16`. -/
def CrcState.add16 (s : CrcState) (data : Word) : CrcState :=
  let s := s.add8 (data &&& 0xff#32)
  let data := data >>> 8
  s.add8 (data &&& 0xff#32)

/-- `CRC32`. -/
def CrcState.add32 (s : CrcState) (data : Word) : CrcState :=
  let s := s.add8 (data &&& 0xff#32)
  let data := data >>> 8
  let s := s.add8 (data &&& 0xff#32)
  let data := data >>> 8
  let s := s.add8 (data &&& 0xff#32)
  let data := data >>> 8
  s.add8 (data &&& 0xff#32)

/-! ## The CRC bit by bit -/

/-- The CRC of bytes after the value `crc`, one data bit at a time, the lowest
bit of a byte first. -/
def crcBits (crc : Word) (data : List Byte) : Word :=
  ~~~feed crcPoly (~~~crc) (data.flatMap (lowBits 8))

/-! ## The table -/

/-- The word of the table for a byte. -/
def crcEntry (i : Byte) : Word := crcTable.getD i.toNat 0#32

/-- **Every entry of the table** is eight shifts of its index. -/
theorem crcEntry_eq (i : Byte) : crcEntry i = shifts crcPoly 8 (i.setWidth 32) := by
  have hall : ∀ n < 256, crcEntry (BitVec.ofNat 8 n) =
      shifts crcPoly 8 ((BitVec.ofNat 8 n).setWidth 32) := by decide +kernel
  have h := hall i.toNat i.isLt
  rwa [BitVec.ofNat_toNat, BitVec.setWidth_eq] at h

/-- The index into the table is the low byte. -/
theorem crcTable_getD (x : Word) :
    crcTable.getD (x &&& 0xff#32).toNat 0#32 = crcEntry (x.setWidth 8) := by
  have hlow : (x &&& 0xff#32).toNat = (x.setWidth 8).toNat := by
    rw [BitVec.toNat_and, BitVec.toNat_setWidth]
    exact Nat.and_two_pow_sub_one_eq_mod x.toNat 8
  rw [hlow]
  rfl

/-! ## What the functions compute -/

/-- **The table CRC is the CRC bit by bit.** -/
theorem crc_eq_crcBits (c : Word) (data : List Byte) : crc c data = crcBits c data := by
  simp only [crc, crcBits, crcTable_getD]
  rw [foldl_table (by decide) crcEntry_eq]

theorem crc_append (c : Word) (data data' : List Byte) :
    crc c (data ++ data') = crc (crc c data) data' := by
  rw [crc, List.foldl_append, crc, crc, BitVec.not_not]

/-- `CRC8` takes in the low byte of its argument. -/
theorem CrcState.add8_eq (s : CrcState) (data : Word) : s.add8 data = s.add [data.setWidth 8] := by
  have hbyte : (~~~s.crc ^^^ data) &&& 0xff#32 =
      (~~~s.crc ^^^ (data.setWidth 8).setWidth 32) &&& 0xff#32 := by
    ext i hi
    simp only [BitVec.getElem_and, BitVec.getElem_xor, BitVec.getElem_setWidth,
      BitVec.getLsbD_setWidth]
    by_cases h : i < 8
    · simp [h, BitVec.getLsbD_eq_getElem hi]
    · have hff : (0xff#32)[i] = false := by
        revert i; decide
      simp [hff]
  simp only [add8, add, App.crc, List.foldl_cons, List.foldl_nil, hbyte]

theorem CrcState.add_append (s : CrcState) (data data' : List Byte) :
    s.add (data ++ data') = (s.add data).add data' :=
  congrArg CrcState.mk (crc_append s.crc data data')

/-- The low byte is what the mask leaves. -/
theorem setWidth_and_ff (w : Word) : (w &&& 0xff#32).setWidth 8 = w.setWidth 8 := by
  have hff : ∀ i < 8, (0xff#32).getLsbD i = true := by decide
  ext i hi
  rw [BitVec.getElem_setWidth, BitVec.getElem_setWidth, BitVec.getLsbD_and, hff i hi, Bool.and_true]

theorem CrcState.add16_eq (s : CrcState) (data : Word) :
    s.add16 data = s.add ((wordBytes data).take 2) := by
  simp only [add16, add8_eq, setWidth_and_ff, ← add_append]
  rfl

theorem CrcState.add32_eq (s : CrcState) (data : Word) : s.add32 data = s.add (wordBytes data) := by
  simp only [add32, add8_eq, setWidth_and_ff, ← add_append, ← BitVec.shiftRight_add]
  rfl

/-- **The CRC is a CRC-32C**, can be computed in pieces, and has the short
forms it should. -/
theorem crc_is_crc32c (s : CrcState) :
    (∀ data, (s.add data).crc = crcBits s.crc data) ∧
      (∀ data data', s.add (data ++ data') = (s.add data).add data') ∧
      ∀ data : Word, s.add8 data = s.add ((wordBytes data).take 1) ∧
        s.add16 data = s.add ((wordBytes data).take 2) ∧ s.add32 data = s.add (wordBytes data) :=
  ⟨fun data => crc_eq_crcBits s.crc data, s.add_append,
    fun data => ⟨s.add8_eq data, s.add16_eq data, s.add32_eq data⟩⟩

/-- The check value of CRC-32C. -/
example : (crcInit.add [0x31#8, 0x32#8, 0x33#8, 0x34#8, 0x35#8, 0x36#8, 0x37#8, 0x38#8,
    0x39#8]).crc = 0xe3069283#32 := by decide

end App

end AntTracer
