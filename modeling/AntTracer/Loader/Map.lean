import AntTracer.Record.Word

/-!
# The chunk map

`map.c` keeps one bit for each slot of an address range. A map is read
through one predicate, `Has m k`: the bit of slot `k` is set. Each operation
has one lemma saying what it does to that predicate, and `mapIsClearAll_iff`
is the test the loader decides on.
-/

namespace AntTracer

namespace Loader

/-- `Map_t`. Its numbers are `unsigned`; the bytes pointed to by `bits` are a
function of their index. -/
structure Map where
  /-- start offset of the data being tracked -/
  start : ℕ
  /-- end address of the largest byte tracked -/
  stop : ℕ
  /-- size of each chunk -/
  chunkSize : ℕ
  /-- the data -/
  bits : ℕ → Byte
  /-- number of bytes in it -/
  entryCount : ℕ

/-- `BITS_PER_BYTE`. -/
abbrev bitsPerByte : ℕ := 8

/-- `MAP_DEFINE`. -/
def mapDefine (s e cs : Word) : Map where
  start := s.toNat
  stop := e.toNat
  chunkSize := cs.toNat
  bits := fun _ => 0#8
  entryCount := (((((e - s) + cs - 1#32) / cs) + 8#32 - 1#32) / 8#32).toNat

/-- The test every operation starts with. -/
def Map.Invalid (m : Map) : Prop := m.chunkSize = 0 ∨ m.entryCount = 0

instance (m : Map) : Decidable m.Invalid := inferInstanceAs (Decidable (_ ∨ _))

/-- `memset(&bits[i], v, n)`. -/
def setBytes (bits : ℕ → Byte) (i : ℕ) (v : Byte) (n : ℕ) : ℕ → Byte :=
  fun j => if i ≤ j ∧ j < i + n then v else bits j

/-- Clear the entire map. -/
def mapClearAll (m : Map) : Map :=
  if m.Invalid then m else { m with bits := setBytes m.bits 0 0x00#8 m.entryCount }

/-- The slot of an address. -/
def Map.slotOf (m : Map) (address : ℕ) : ℕ := (address - m.start) / m.chunkSize

/-- Clear the bit that corresponds to the address. -/
def mapClear (m : Map) (address : ℕ) : Map :=
  if m.Invalid then m
  else if address < m.start ∨ address ≥ m.stop then m
  else
    let slot := (address - m.start) / m.chunkSize
    let byteIdx := slot / bitsPerByte
    let bitOffset := slot % bitsPerByte
    { m with bits := Function.update m.bits byteIdx (m.bits byteIdx &&& ~~~(1#8 <<< bitOffset)) }

/-- The loop of `MapIsClearAll`, from byte `i` on over `n` bytes. -/
def isClearFrom (m : Map) (byteOffset bitOffset : ℕ) : ℕ → ℕ → Byte → Bool
  | 0, _, _ => true
  | n + 1, i, mask =>
    let mask :=
      if i = byteOffset then
        (mask <<< (bitsPerByte - bitOffset)) >>> (bitsPerByte - bitOffset)
      else mask
    if m.bits i &&& mask ≠ 0#8 then false else isClearFrom m byteOffset bitOffset n (i + 1) mask

/-- Return true if the entire map is clear. -/
def mapIsClearAll (m : Map) : Bool :=
  if m.Invalid then false
  else
    let range := (m.stop + 2 ^ 32 - m.start) % 2 ^ 32
    let slot := range / m.chunkSize
    isClearFrom m (slot / bitsPerByte) (slot % bitsPerByte) m.entryCount 0 0xff#8

/-- Set the bit that corresponds to the address. -/
def mapSet (m : Map) (address : ℕ) : Map :=
  if m.Invalid then m
  else if address < m.start ∨ address ≥ m.stop then m
  else
    let slot := (address - m.start) / m.chunkSize
    let byteIdx := slot / bitsPerByte
    let bitOffset := slot % bitsPerByte
    { m with bits := Function.update m.bits byteIdx (m.bits byteIdx ||| (1#8 <<< bitOffset)) }

/-- Set the bits that correspond to the addresses from `s` to `e`. -/
def mapSetRange (m : Map) (s e : ℕ) : Map :=
  if m.Invalid then m
  else if s < m.start ∨ e ≥ m.stop ∨ s ≥ e then m
  else
    let sSlot := (s - m.start) / m.chunkSize
    let sByte := sSlot / bitsPerByte
    let sBit := sSlot % bitsPerByte
    let eSlot := ((e - m.start) + m.chunkSize - 1) % 2 ^ 32 / m.chunkSize
    let eByte := eSlot / bitsPerByte
    let eBit := eSlot % bitsPerByte
    if sByte = eByte then
      { m with
        bits := Function.update m.bits sByte
          (m.bits sByte ||| (((1#8 <<< (eBit - sBit)) - 1#8) <<< sBit)) }
    else
      let bits := Function.update m.bits sByte (m.bits sByte ||| ~~~((1#8 <<< sBit) - 1#8))
      let bits := setBytes bits (sByte + 1) 0xff#8 ((eByte + 2 ^ 32 - (sByte + 1)) % 2 ^ 32)
      { m with bits := Function.update bits eByte (bits eByte ||| ((1#8 <<< eBit) - 1#8)) }

/-- Return true if the slot at the address is set. -/
def mapIsSet (m : Map) (address : ℕ) : Bool :=
  if m.Invalid then false
  else if address < m.start ∨ address ≥ m.stop then false
  else
    let slot := (address - m.start) / m.chunkSize
    let byteIdx := slot / bitsPerByte
    let bitOffset := slot % bitsPerByte
    m.bits byteIdx &&& (1#8 <<< bitOffset) ≠ 0#8

/-! ## The map as a set of slots -/

/-- The bit of slot `k` is set. -/
def Has (m : Map) (k : ℕ) : Prop := (m.bits (k / 8)).getLsbD (k % 8) = true

/-- The number of slots. -/
def Map.slots (m : Map) : ℕ := (m.stop - m.start) / m.chunkSize

/-- What a map tracks, its content apart. -/
def Map.shape (m : Map) : ℕ × ℕ × ℕ × ℕ := (m.start, m.stop, m.chunkSize, m.entryCount)

/-- A map as `MAP_DEFINE` lays it out over a range of whole chunks. -/
structure Map.Laid (m : Map) : Prop where
  /-- a chunk has a size -/
  chunkSize_pos : 0 < m.chunkSize
  /-- the range is not empty -/
  lt : m.start < m.stop
  /-- it ends at an address -/
  stop_lt : m.stop < 2 ^ 32
  /-- the range is a number of whole chunks -/
  dvd : m.chunkSize ∣ m.stop - m.start
  /-- rounding it up to chunks does not wrap -/
  fits : m.stop - m.start + m.chunkSize ≤ 2 ^ 32
  /-- there is a byte for every eight slots -/
  entryCount_eq : m.entryCount = (m.slots + 7) / 8

theorem Map.Laid.slots_pos {m : Map} (h : m.Laid) : 0 < m.slots := by
  have := h.lt
  exact Nat.div_pos (Nat.le_of_dvd (by omega) h.dvd) h.chunkSize_pos

theorem Map.Laid.not_invalid {m : Map} (h : m.Laid) : ¬ m.Invalid := by
  have h₁ := h.chunkSize_pos
  have h₂ := h.slots_pos
  have h₃ := h.entryCount_eq
  unfold Map.Invalid
  omega

/-- A number of chunks that is rounded up does not change. -/
theorem chunks_roundUp {k cs : ℕ} (hcs : 0 < cs) : (k * cs + cs - 1) / cs = k := by
  rw [Nat.add_sub_assoc (by omega), Nat.mul_comm, Nat.mul_add_div hcs, Nat.div_eq_of_lt (by omega),
    Nat.add_zero]

/-- The slots of a range of whole chunks; there are none where rounding it up
wraps. -/
theorem toNat_chunkSlots {r cs : Word} {k : ℕ} (hcs : 0 < cs.toNat) (hk : r.toNat = k * cs.toNat) :
    ((r + cs - 1#32) / cs).toNat = if r.toNat + cs.toNat ≤ 2 ^ 32 then k else 0 := by
  rw [BitVec.toNat_udiv]
  split
  · rw [show (r + cs - 1#32).toNat = r.toNat + cs.toNat - 1 by bv_omega, hk, chunks_roundUp hcs]
  · exact Nat.div_eq_of_lt (by bv_omega)

/-- The bytes of a number of slots; there are none where rounding it up
wraps. -/
theorem toNat_slotBytes (x : Word) :
    ((x + 8#32 - 1#32) / 8#32).toNat = if x.toNat + 8 ≤ 2 ^ 32 then (x.toNat + 7) / 8 else 0 := by
  rw [BitVec.toNat_udiv, show (8#32 : Word).toNat = 8 from rfl]
  split
  · rw [show (x + 8#32 - 1#32).toNat = x.toNat + 7 by bv_omega]
  · exact Nat.div_eq_of_lt (by bv_omega)

/-- **`MAP_DEFINE` lays out a map** over a range of whole chunks, if it
counts a byte for it. -/
theorem mapDefine_laid {s e cs : Word} (hlt : s.toNat < e.toNat)
    (hdvd : cs.toNat ∣ e.toNat - s.toNat) (hcount : (mapDefine s e cs).entryCount ≠ 0) :
    (mapDefine s e cs).Laid := by
  -- chunks of no size divide zero alone
  have hcs : 0 < cs.toNat := Nat.pos_of_dvd_of_pos hdvd (by omega)
  have hrange : (e - s).toNat = e.toNat - s.toNat := by bv_omega
  have hslots : (e - s).toNat = (e.toNat - s.toNat) / cs.toNat * cs.toNat := by
    rw [hrange, Nat.div_mul_cancel hdvd]
  have hbytes : (mapDefine s e cs).entryCount =
      if ((e - s + cs - 1#32) / cs).toNat + 8 ≤ 2 ^ 32 then
        (((e - s + cs - 1#32) / cs).toNat + 7) / 8
      else 0 :=
    toNat_slotBytes _
  rw [toNat_chunkSlots hcs hslots, hrange] at hbytes
  by_cases hfits : e.toNat - s.toNat + cs.toNat ≤ 2 ^ 32
  · rw [if_pos hfits] at hbytes
    split at hbytes
    · exact ⟨hcs, hlt, e.isLt, hdvd, hfits, hbytes⟩
    · exact absurd hbytes hcount
  · rw [if_neg hfits] at hbytes
    exact absurd hbytes hcount

theorem Map.Laid.slotOf_lt {m : Map} (h : m.Laid) {a : ℕ} (ha : a < m.stop) :
    m.slotOf a < m.slots := by
  have := h.lt
  rw [Map.slotOf, Map.slots, Nat.div_lt_iff_lt_mul h.chunkSize_pos, Nat.div_mul_cancel h.dvd]
  omega

/-- A range of whole chunks ends at the slot of its end. -/
theorem Map.Laid.endSlot_eq {m : Map} (h : m.Laid) {e : ℕ} (hdvd : m.chunkSize ∣ e - m.start) :
    ((e - m.start) + m.chunkSize - 1) / m.chunkSize = m.slotOf e := by
  obtain ⟨q, hq⟩ := hdvd
  rw [Map.slotOf, hq, Nat.mul_comm, chunks_roundUp h.chunkSize_pos,
    Nat.mul_div_cancel q h.chunkSize_pos]

theorem Map.Laid.of_shape {m m' : Map} (h : m.Laid) (hs : m'.shape = m.shape) : m'.Laid := by
  simp only [Map.shape, Prod.mk.injEq] at hs
  obtain ⟨h₁, h₂, h₃, h₄⟩ := hs
  obtain ⟨a, b, c, d, e, f⟩ := h
  refine ⟨by omega, by omega, by omega, by rwa [h₁, h₂, h₃], by omega, ?_⟩
  rw [h₄, f, Map.slots, Map.slots, h₁, h₂, h₃]

/-- A map with the shape of a new one has its range and its chunks. -/
theorem Map.range_of_shape {m : Map} {s e cs : Word} (h : m.shape = (mapDefine s e cs).shape) :
    m.start = s.toNat ∧ m.stop = e.toNat ∧ m.chunkSize = cs.toNat := by
  simp only [Map.shape, mapDefine, Prod.mk.injEq] at h
  exact ⟨h.1, h.2.1, h.2.2.1⟩

@[simp] theorem shape_mapClearAll (m : Map) : (mapClearAll m).shape = m.shape := by
  unfold mapClearAll; split <;> rfl

@[simp] theorem shape_mapClear (m : Map) (a : ℕ) : (mapClear m a).shape = m.shape := by
  unfold mapClear; split_ifs <;> rfl

@[simp] theorem shape_mapSet (m : Map) (a : ℕ) : (mapSet m a).shape = m.shape := by
  unfold mapSet; split_ifs <;> rfl

@[simp] theorem shape_mapSetRange (m : Map) (s e : ℕ) : (mapSetRange m s e).shape = m.shape := by
  unfold mapSetRange; dsimp only; split_ifs <;> rfl

/-! ### Clearing and setting one slot -/

theorem getLsbD_one_shiftLeft {b i : ℕ} (hb : b < 8) : (1#8 <<< b).getLsbD i = decide (i = b) := by
  by_cases hi : i < 8
  · simp only [BitVec.getLsbD_shiftLeft, hi, decide_true, Bool.true_and, BitVec.getLsbD_one]
    by_cases h : i = b
    · subst h; simp
    · by_cases hlt : i < b
      · simp [hlt, h]
      · simp only [hlt, decide_false, Bool.not_false, Bool.true_and, h]
        simp; omega
  · have hne : i ≠ b := by omega
    simp [BitVec.getLsbD_of_ge _ _ (by omega : 8 ≤ i), hne]

/-- **A cleared map has no slot.** -/
theorem not_has_mapClearAll {m : Map} (h : m.Laid) {k : ℕ} (hk : k < m.slots) :
    ¬ Has (mapClearAll m) k := by
  have hle : k / 8 < m.entryCount := by have := h.entryCount_eq; omega
  simp [Has, mapClearAll, if_neg h.not_invalid, setBytes, hle]

theorem has_mapClear {m : Map} (h : m.Laid) {a : ℕ} (ha : m.start ≤ a) (ha' : a < m.stop) {k : ℕ} :
    Has (mapClear m a) k ↔ Has m k ∧ k ≠ m.slotOf a := by
  have hr : ¬ (a < m.start ∨ a ≥ m.stop) := by omega
  simp only [mapClear, if_neg h.not_invalid, if_neg hr, Has]
  rw [← Map.slotOf]
  by_cases hb : k / 8 = m.slotOf a / 8
  · have hk : k % 8 < 8 := Nat.mod_lt _ (by decide)
    have heq : k = m.slotOf a ↔ k % 8 = m.slotOf a % 8 := by omega
    rw [hb, Function.update_self, BitVec.getLsbD_and, BitVec.getLsbD_not,
      getLsbD_one_shiftLeft (Nat.mod_lt _ (by decide))]
    simp [heq, hk]
  · have hne : k ≠ m.slotOf a := fun h => hb (h ▸ rfl)
    rw [Function.update_of_ne hb]
    simp [hne]

theorem has_mapSet {m : Map} (h : m.Laid) {a : ℕ} (ha : m.start ≤ a) (ha' : a < m.stop) {k : ℕ} :
    Has (mapSet m a) k ↔ Has m k ∨ k = m.slotOf a := by
  have hr : ¬ (a < m.start ∨ a ≥ m.stop) := by omega
  simp only [mapSet, if_neg h.not_invalid, if_neg hr, Has]
  rw [← Map.slotOf]
  by_cases hb : k / 8 = m.slotOf a / 8
  · have heq : k = m.slotOf a ↔ k % 8 = m.slotOf a % 8 := by omega
    rw [hb, Function.update_self, BitVec.getLsbD_or,
      getLsbD_one_shiftLeft (Nat.mod_lt _ (by decide))]
    simp [heq]
  · have hne : k ≠ m.slotOf a := fun h => hb (h ▸ rfl)
    rw [Function.update_of_ne hb]
    simp [hne]

/-- Outside its range a map does not change. -/
theorem mapClear_of_ge {m : Map} {a : ℕ} (ha : m.stop ≤ a) : mapClear m a = m := by
  unfold mapClear
  split_ifs <;> first | rfl | omega

theorem mapSet_of_ge {m : Map} {a : ℕ} (ha : m.stop ≤ a) : mapSet m a = m := by
  unfold mapSet
  split_ifs <;> first | rfl | omega

theorem mapIsSet_iff {m : Map} (h : m.Laid) {a : ℕ} (ha : m.start ≤ a) (ha' : a < m.stop) :
    mapIsSet m a = true ↔ Has m (m.slotOf a) := by
  have hr : ¬ (a < m.start ∨ a ≥ m.stop) := by omega
  simp only [mapIsSet, if_neg h.not_invalid, if_neg hr, Has, decide_eq_true_eq]
  rw [← Map.slotOf]
  have hb : m.slotOf a % 8 < 8 := Nat.mod_lt _ (by decide)
  constructor
  · intro hne
    by_contra hf
    apply hne
    apply BitVec.eq_of_getLsbD_eq
    intro i hi
    rw [BitVec.getLsbD_and, getLsbD_one_shiftLeft hb, BitVec.getLsbD_zero]
    by_cases h : i = m.slotOf a % 8
    · subst h; simpa using hf
    · simp [h]
  · intro hset heq
    have := congrArg (fun w : Byte => w.getLsbD (m.slotOf a % 8)) heq
    simp only [BitVec.getLsbD_and, getLsbD_one_shiftLeft hb, hset, BitVec.getLsbD_zero] at this
    simp at this

theorem mapIsSet_of_ge {m : Map} {a : ℕ} (ha : m.stop ≤ a) : mapIsSet m a = false := by
  unfold mapIsSet
  split_ifs <;> first | rfl | omega

/-! ### Setting a range -/

theorem getLsbD_lowBits {b i : ℕ} (hb : b ≤ 8) :
    ((1#8 <<< b) - 1#8).getLsbD i = decide (i < b) := by
  have heq : (1#8 <<< b) - 1#8 = BitVec.ofNat 8 (2 ^ b - 1) := by
    have hle : 2 ^ b ≤ 2 ^ 8 := Nat.pow_le_pow_right (by omega) hb
    have hpos : 0 < 2 ^ b := Nat.two_pow_pos b
    apply BitVec.eq_of_toNat_eq
    simp only [BitVec.toNat_sub, BitVec.toNat_shiftLeft, BitVec.toNat_ofNat, Nat.shiftLeft_eq]
    omega
  rw [heq, BitVec.getLsbD_ofNat, Nat.testBit_two_pow_sub_one]
  by_cases hi : i < b
  · simp [hi]; omega
  · simp [hi]

/-- Rounding the end of a range in the map up to chunks does not wrap. -/
theorem Map.Laid.endSlot_mod {m : Map} (h : m.Laid) {e : ℕ} (he : e < m.stop) :
    ((e - m.start) + m.chunkSize - 1) % 2 ^ 32 = (e - m.start) + m.chunkSize - 1 := by
  have := h.fits
  have := h.chunkSize_pos
  exact Nat.mod_eq_of_lt (by omega)

/-- **`MapSetRange` adds exactly the slots of its range.** -/
theorem has_mapSetRange {m : Map} (h : m.Laid) {s e : ℕ} (hs : m.start ≤ s) (hse : s < e)
    (he : e < m.stop) {k : ℕ} :
    Has (mapSetRange m s e) k ↔
      Has m k ∨ (m.slotOf s ≤ k ∧ k < ((e - m.start) + m.chunkSize - 1) / m.chunkSize) := by
  have hr : ¬ (s < m.start ∨ e ≥ m.stop ∨ s ≥ e) := by omega
  have hcs := h.chunkSize_pos
  have hroom : ((e - m.start) + m.chunkSize - 1) / m.chunkSize < 2 ^ 32 := by
    have := h.fits
    exact lt_of_le_of_lt (Nat.div_le_self ..) (by omega)
  have hwrap := h.endSlot_mod he
  generalize heS : ((e - m.start) + m.chunkSize - 1) / m.chunkSize = eSlot at hroom
  have hord : m.slotOf s ≤ eSlot := by
    rw [← heS]
    exact Nat.div_le_div_right (by omega)
  generalize hsS : m.slotOf s = sSlot at hord
  have hsS' : (s - m.start) / m.chunkSize = sSlot := hsS
  simp only [mapSetRange, bitsPerByte, if_neg h.not_invalid, if_neg hr, hsS', hwrap, heS]
  have hk8 : k % 8 < 8 := Nat.mod_lt _ (by decide)
  have hs8 : sSlot % 8 < 8 := Nat.mod_lt _ (by decide)
  have he8 : eSlot % 8 < 8 := Nat.mod_lt _ (by decide)
  by_cases hbyte : sSlot / 8 = eSlot / 8
  · -- both ends in one byte
    simp only [hbyte, if_true, Has]
    by_cases hb : k / 8 = eSlot / 8
    · rw [hb, Function.update_self, BitVec.getLsbD_or, BitVec.getLsbD_shiftLeft,
        getLsbD_lowBits (by omega)]
      simp only [hk8, decide_true, Bool.true_and, Bool.or_eq_true, Bool.and_eq_true,
        Bool.not_eq_true', decide_eq_false_iff_not, decide_eq_true_eq]
      refine or_congr Iff.rfl ?_
      constructor <;> intro hx <;> omega
    · rw [Function.update_of_ne hb]
      refine ⟨Or.inl, fun hx => hx.elim id fun hx => ?_⟩
      omega
  · have hlen : (eSlot / 8 + 2 ^ 32 - (sSlot / 8 + 1)) % 2 ^ 32 = eSlot / 8 - (sSlot / 8 + 1) := by
      omega
    simp only [hbyte, if_false, Has, hlen]
    by_cases hbe : k / 8 = eSlot / 8
    · -- the last byte
      have hne : eSlot / 8 ≠ sSlot / 8 := fun h => hbyte h.symm
      rw [hbe, Function.update_self, BitVec.getLsbD_or, getLsbD_lowBits (by omega), setBytes,
        if_neg (by omega), Function.update_of_ne hne]
      simp only [Bool.or_eq_true, decide_eq_true_eq]
      refine or_congr Iff.rfl ?_
      constructor <;> intro hx <;> omega
    · rw [Function.update_of_ne hbe, setBytes]
      by_cases hmid : sSlot / 8 + 1 ≤ k / 8 ∧ k / 8 < sSlot / 8 + 1 + (eSlot / 8 - (sSlot / 8 + 1))
      · -- a byte in between
        rw [if_pos hmid]
        have hff : (0xff#8).getLsbD (k % 8) = true := by
          have : ∀ i < 8, (0xff#8).getLsbD i = true := by decide
          exact this _ hk8
        simp only [hff, true_iff]
        omega
      · rw [if_neg hmid]
        by_cases hbs : k / 8 = sSlot / 8
        · -- the first byte
          rw [hbs, Function.update_self, BitVec.getLsbD_or, BitVec.getLsbD_not,
            getLsbD_lowBits (by omega)]
          simp only [hk8, decide_true, Bool.true_and, Bool.or_eq_true, Bool.not_eq_true',
            decide_eq_false_iff_not]
          refine or_congr Iff.rfl ?_
          constructor <;> intro hx <;> omega
        · rw [Function.update_of_ne hbs]
          refine ⟨Or.inl, fun hx => hx.elim id fun hx => ?_⟩
          omega

/-- A range that does not end below the map's end is ignored. -/
theorem mapSetRange_of_ge {m : Map} {s e : ℕ} (he : m.stop ≤ e) : mapSetRange m s e = m := by
  unfold mapSetRange
  split_ifs <;> first | rfl | omega

/-! ### The test for an empty map -/

/-- The mask of the last byte keeps the bits of the slots there are. -/
theorem getLsbD_lastMask {b i : ℕ} (hb : b < 8) :
    ((0xff#8 <<< (8 - b)) >>> (8 - b)).getLsbD i = decide (i < b) := by
  have h : ∀ b < 8, ∀ i < 8, ((0xff#8 <<< (8 - b)) >>> (8 - b)).getLsbD i = decide (i < b) := by
    decide
  by_cases hi : i < 8
  · exact h b hb i hi
  · rw [BitVec.getLsbD_of_ge _ _ (by omega : 8 ≤ i)]
    simp; omega

theorem and_eq_zero_iff {x y : Byte} :
    x &&& y = 0#8 ↔ ∀ i < 8, ¬ (x.getLsbD i = true ∧ y.getLsbD i = true) := by
  constructor
  · intro h i hi hxy
    have := congrArg (fun w : Byte => w.getLsbD i) h
    simp [hxy.1, hxy.2] at this
  · intro h
    apply BitVec.eq_of_getLsbD_eq
    intro i hi
    have := h i hi
    rw [BitVec.getLsbD_and, BitVec.getLsbD_zero]
    cases hx : x.getLsbD i <;> cases hy : y.getLsbD i <;> simp_all

/-- The loop over the whole bytes and the last one. -/
theorem isClearFrom_iff {m : Map} {q r : ℕ} (hr : r < 8) : ∀ (n i : ℕ),
    i + n = q + (if r = 0 then 0 else 1) →
    (isClearFrom m q r n i 0xff#8 = true ↔
      ∀ j, i ≤ j → ∀ b < 8, 8 * j + b < 8 * q + r → (m.bits j).getLsbD b = false) := by
  intro n
  induction n with
  | zero =>
    intro i hi
    simp only [isClearFrom, true_iff]
    intro j hj b hb hlt
    split_ifs at hi <;> omega
  | succ n ih =>
    intro i hi
    by_cases hq : i = q
    · -- the last byte, of which only `r` bits count
      subst hq
      have hn : n = 0 := by split_ifs at hi <;> omega
      have hr0 : r ≠ 0 := by rintro rfl; simp at hi
      subst hn
      simp only [isClearFrom, if_true]
      rw [ite_not, Bool.if_true_left, Bool.or_false, decide_eq_true_eq, and_eq_zero_iff]
      constructor
      · intro h j hj b hb hlt
        obtain rfl : j = i := by omega
        have := h b hb
        rw [getLsbD_lastMask hr] at this
        simpa [show b < r by omega] using this
      · intro h b hb hx
        rw [getLsbD_lastMask hr] at hx
        have := h i le_rfl b hb (by simp at hx; omega)
        simp [this] at hx
    · have hlt : i < q := by split_ifs at hi <;> omega
      simp only [isClearFrom, if_neg hq]
      by_cases hz : m.bits i &&& 0xff#8 = 0#8
      · rw [if_neg (by simpa using hz), ih (i + 1) (by omega)]
        refine ⟨fun h j hj b hb hjb => ?_, fun h j hj => h j (by omega)⟩
        by_cases hij : j = i
        · subst hij
          have hff : (0xff#8).getLsbD b = true := by
            have : ∀ i < 8, (0xff#8).getLsbD i = true := by decide
            exact this _ hb
          simpa [hff] using and_eq_zero_iff.1 hz b hb
        · exact h j (by omega) b hb hjb
      · rw [if_pos (by simpa using hz)]
        simp only [Bool.false_eq_true, false_iff]
        intro h
        apply hz
        rw [and_eq_zero_iff]
        intro b hb hx
        simp [h i le_rfl b hb (by omega)] at hx

theorem Map.Laid.range_mod {m : Map} (h : m.Laid) :
    (m.stop + 2 ^ 32 - m.start) % 2 ^ 32 = m.stop - m.start := by
  have := h.lt
  have := h.stop_lt
  omega

/-- **`MapIsClearAll` decides emptiness.** -/
theorem mapIsClearAll_iff {m : Map} (h : m.Laid) :
    mapIsClearAll m = true ↔ ∀ k < m.slots, ¬ Has m k := by
  have hcount : 0 + m.entryCount = m.slots / 8 + (if m.slots % 8 = 0 then 0 else 1) := by
    have := h.entryCount_eq
    split_ifs <;> omega
  rw [mapIsClearAll, if_neg h.not_invalid]
  simp only [h.range_mod]
  change isClearFrom m (m.slots / 8) (m.slots % 8) m.entryCount 0 0xff#8 = true ↔ _
  rw [isClearFrom_iff (Nat.mod_lt _ (by decide)) _ _ hcount]
  constructor
  · intro hx k hk hhas
    have := hx (k / 8) (Nat.zero_le _) (k % 8) (Nat.mod_lt _ (by decide)) (by omega)
    rw [Has, this] at hhas
    cases hhas
  · intro hx j _ b hb hlt
    have := hx (8 * j + b) (by omega)
    rw [Has, show (8 * j + b) / 8 = j by omega, show (8 * j + b) % 8 = b by omega] at this
    simpa using this

end Loader

end AntTracer
