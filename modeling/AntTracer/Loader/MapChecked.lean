import AntTracer.Loader.Map

/-!
# The chunk map with every access checked

The operations and the tests of `map.c` once more, with the index of each byte
of the map checked against `entryCount`: there is no result when a byte is
read or written that is not one of the map's. On a map as `MAP_DEFINE` lays it
out there always is one, the same as without the checks.
-/

namespace AntTracer

namespace Loader

namespace MapChecked

/-! ## The source -/

/-- `map->bits[i]`. -/
def load (m : Map) (i : ℕ) : Option Byte :=
  if i < m.entryCount then some (m.bits i) else none

/-- `map->bits[i] = v`. -/
def store (m : Map) (i : ℕ) (v : Byte) : Option Map :=
  if i < m.entryCount then some { m with bits := Function.update m.bits i v } else none

/-- `memset(&map->bits[i], v, n)`. -/
def memset (v : Byte) : ℕ → ℕ → Map → Option Map
  | _, 0, m => some m
  | i, n + 1, m => do
    let m ← store m i v
    memset v (i + 1) n m

/-- Clear the entire map. -/
def mapClearAll (m : Map) : Option Map :=
  if m.Invalid then some m else memset 0x00#8 0 m.entryCount m

/-- Clear the bit that corresponds to the address. -/
def mapClear (m : Map) (address : ℕ) : Option Map :=
  if m.Invalid then some m
  else if address < m.start ∨ address ≥ m.stop then some m
  else do
    let slot := (address - m.start) / m.chunkSize
    let byteIdx := slot / bitsPerByte
    let bitOffset := slot % bitsPerByte
    let b ← load m byteIdx
    store m byteIdx (b &&& ~~~(1#8 <<< bitOffset))

/-- The loop of `MapIsClearAll`, from byte `i` on over `n` bytes. -/
def isClearFrom (m : Map) (byteOffset bitOffset : ℕ) : ℕ → ℕ → Byte → Option Bool
  | 0, _, _ => some true
  | n + 1, i, mask => do
    let mask :=
      if i = byteOffset then
        (mask <<< (bitsPerByte - bitOffset)) >>> (bitsPerByte - bitOffset)
      else mask
    let b ← load m i
    if b &&& mask ≠ 0#8 then some false else isClearFrom m byteOffset bitOffset n (i + 1) mask

/-- Return true if the entire map is clear. -/
def mapIsClearAll (m : Map) : Option Bool :=
  if m.Invalid then some false
  else
    let range := (m.stop + 2 ^ 32 - m.start) % 2 ^ 32
    let slot := range / m.chunkSize
    isClearFrom m (slot / bitsPerByte) (slot % bitsPerByte) m.entryCount 0 0xff#8

/-- Set the bit that corresponds to the address. -/
def mapSet (m : Map) (address : ℕ) : Option Map :=
  if m.Invalid then some m
  else if address < m.start ∨ address ≥ m.stop then some m
  else do
    let slot := (address - m.start) / m.chunkSize
    let byteIdx := slot / bitsPerByte
    let bitOffset := slot % bitsPerByte
    let b ← load m byteIdx
    store m byteIdx (b ||| (1#8 <<< bitOffset))

/-- Set the bits that correspond to the addresses from `s` to `e`. -/
def mapSetRange (m : Map) (s e : ℕ) : Option Map :=
  if m.Invalid then some m
  else if s < m.start ∨ e ≥ m.stop ∨ s ≥ e then some m
  else do
    let sSlot := (s - m.start) / m.chunkSize
    let sByte := sSlot / bitsPerByte
    let sBit := sSlot % bitsPerByte
    let eSlot := ((e - m.start) + m.chunkSize - 1) % 2 ^ 32 / m.chunkSize
    let eByte := eSlot / bitsPerByte
    let eBit := eSlot % bitsPerByte
    let b ← load m sByte
    if sByte = eByte then store m sByte (b ||| (((1#8 <<< (eBit - sBit)) - 1#8) <<< sBit))
    else do
      let m ← store m sByte (b ||| ~~~((1#8 <<< sBit) - 1#8))
      let m ← memset 0xff#8 (sByte + 1) ((eByte + 2 ^ 32 - (sByte + 1)) % 2 ^ 32) m
      let b ← load m eByte
      store m eByte (b ||| ((1#8 <<< eBit) - 1#8))

/-- Return true if the slot at the address is set. -/
def mapIsSet (m : Map) (address : ℕ) : Option Bool :=
  if m.Invalid then some false
  else if address < m.start ∨ address ≥ m.stop then some false
  else do
    let slot := (address - m.start) / m.chunkSize
    let byteIdx := slot / bitsPerByte
    let bitOffset := slot % bitsPerByte
    let b ← load m byteIdx
    some (b &&& (1#8 <<< bitOffset) ≠ 0#8)

/-! ## The bytes are there -/

section Bounds

variable {m : Map} {i n : ℕ}

theorem load_eq (hi : i < m.entryCount) : load m i = some (m.bits i) := if_pos hi

theorem store_eq (hi : i < m.entryCount) (v : Byte) :
    store m i v = some { m with bits := Function.update m.bits i v } := if_pos hi

theorem setBytes_succ (bits : ℕ → Byte) (i : ℕ) (v : Byte) (n : ℕ) :
    setBytes (Function.update bits i v) (i + 1) v n = setBytes bits i v (n + 1) := by
  funext j
  unfold setBytes
  by_cases hj : j = i
  · subst hj
    rw [if_neg (by omega), if_pos (by omega), Function.update_self]
  · rw [Function.update_of_ne hj]
    exact if_congr (by omega) rfl rfl

/-- A `memset` within the map fills its bytes. -/
theorem memset_eq (v : Byte) : ∀ {n i : ℕ} {m : Map}, i + n ≤ m.entryCount →
    memset v i n m = some { m with bits := setBytes m.bits i v n } := by
  intro n
  induction n with
  | zero =>
    intro i m _
    have hnone : setBytes m.bits i v 0 = m.bits := funext fun j => if_neg (by omega)
    rw [memset, hnone]
  | succ n ih =>
    intro i m hn
    rw [memset, store_eq (by omega), Option.bind_eq_bind, Option.bind_some,
      ih (by dsimp only; omega), setBytes_succ]

theorem isClearFrom_eq {q r : ℕ} : ∀ {n i : ℕ} (mask : Byte), i + n ≤ m.entryCount →
    isClearFrom m q r n i mask = some (Loader.isClearFrom m q r n i mask) := by
  intro n
  induction n with
  | zero => intro i mask _; rfl
  | succ n ih =>
    intro i mask hn
    simp only [isClearFrom, Loader.isClearFrom, load_eq (show i < m.entryCount by omega),
      Option.bind_eq_bind, Option.bind_some, ih _ (show i + 1 + n ≤ m.entryCount by omega)]
    split_ifs <;> rfl

end Bounds

/-! ## A map laid out by `MAP_DEFINE` -/

section Laid

variable {m : Map} (h : m.Laid)
include h

theorem byte_lt {a : ℕ} (ha : a < m.stop) :
    (a - m.start) / m.chunkSize / bitsPerByte < m.entryCount := by
  have hslot : (a - m.start) / m.chunkSize < m.slots := h.slotOf_lt ha
  have hcount := h.entryCount_eq
  simp only [bitsPerByte]
  omega

theorem mapClearAll_eq : mapClearAll m = some (Loader.mapClearAll m) := by
  rw [mapClearAll, if_neg h.not_invalid, memset_eq _ (by omega), Loader.mapClearAll,
    if_neg h.not_invalid]

theorem mapClear_eq (a : ℕ) : mapClear m a = some (Loader.mapClear m a) := by
  rw [mapClear, Loader.mapClear, if_neg h.not_invalid, if_neg h.not_invalid]
  split
  · rfl
  · have hbyte := byte_lt h (show a < m.stop by omega)
    simp only [load_eq hbyte, store_eq hbyte, Option.bind_eq_bind, Option.bind_some]

theorem mapSet_eq (a : ℕ) : mapSet m a = some (Loader.mapSet m a) := by
  rw [mapSet, Loader.mapSet, if_neg h.not_invalid, if_neg h.not_invalid]
  split
  · rfl
  · have hbyte := byte_lt h (show a < m.stop by omega)
    simp only [load_eq hbyte, store_eq hbyte, Option.bind_eq_bind, Option.bind_some]

theorem mapIsSet_eq (a : ℕ) : mapIsSet m a = some (Loader.mapIsSet m a) := by
  rw [mapIsSet, Loader.mapIsSet, if_neg h.not_invalid, if_neg h.not_invalid]
  split
  · rfl
  · have hbyte := byte_lt h (show a < m.stop by omega)
    simp only [load_eq hbyte, Option.bind_eq_bind, Option.bind_some]

theorem mapIsClearAll_eq : mapIsClearAll m = some (Loader.mapIsClearAll m) := by
  rw [mapIsClearAll, Loader.mapIsClearAll, if_neg h.not_invalid, if_neg h.not_invalid]
  exact isClearFrom_eq _ (by omega)

/-- A range of whole chunks ends in one of the map's bytes. -/
theorem mapSetRange_eq {s e : ℕ} (hdvd : m.chunkSize ∣ e - m.start) :
    mapSetRange m s e = some (Loader.mapSetRange m s e) := by
  rw [mapSetRange, Loader.mapSetRange, if_neg h.not_invalid, if_neg h.not_invalid]
  split
  · rfl
  · rename_i hr
    have hfirst := byte_lt h (show s < m.stop by omega)
    have hlast := byte_lt h (show e < m.stop by omega)
    have hord : (s - m.start) / m.chunkSize ≤ (e - m.start) / m.chunkSize :=
      Nat.div_le_div_right (by omega)
    have hend := h.endSlot_eq hdvd
    rw [Map.slotOf] at hend
    simp only [h.endSlot_mod (show e < m.stop by omega), hend, load_eq hfirst,
      Option.bind_eq_bind, Option.bind_some]
    split
    · exact store_eq hfirst _
    · -- the bytes after the first one, up to the last
      have hmid : (s - m.start) / m.chunkSize / bitsPerByte + 1 +
          ((e - m.start) / m.chunkSize / bitsPerByte + 2 ^ 32 -
            ((s - m.start) / m.chunkSize / bitsPerByte + 1)) % 2 ^ 32 ≤ m.entryCount := by
        have := h.stop_lt
        have : (e - m.start) / m.chunkSize ≤ e - m.start := Nat.div_le_self ..
        simp only [bitsPerByte] at *
        omega
      rw [store_eq hfirst, Option.bind_some, memset_eq _ (by exact hmid), Option.bind_some,
        load_eq (by exact hlast), Option.bind_some, store_eq (by exact hlast)]

end Laid

end MapChecked

end Loader

end AntTracer
