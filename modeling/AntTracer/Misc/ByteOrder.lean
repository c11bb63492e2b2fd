import AntTracer.Library.Bytes
import AntTracer.Library.Stores
import AntTracer.Record.Word

/-!
# Reading and writing in a byte order

The accessors of `types.h`, on a little-endian machine. Those for big endian
turn the bytes around, but the two for 64 bits only swap the halves, and read
and write each of them in little endian: `byteOrder_iff` has the buffers and
the values for which this is the same.
-/

namespace AntTracer

namespace Types

open Stores Bytes

/-! ## The source -/

/-- A load through a `u16 *`. -/
def load16 (m : ℕ → Byte) (buf : ℕ) : BitVec 16 := m (buf + 1) ++ m buf

/-- A load through a `u32 *`. -/
def load32 (m : ℕ → Byte) (buf : ℕ) : Word := m (buf + 3) ++ m (buf + 2) ++ m (buf + 1) ++ m buf

/-- The pattern that swaps two bytes. -/
def swap16 (v : Word) : Word := ((v >>> 8) &&& 0x000000ff#32) ||| ((v <<< 8) &&& 0x0000ff00#32)

/-- The pattern that swaps four bytes. -/
def swap32 (v : Word) : Word :=
  ((v >>> 24) &&& 0x000000ff#32) ||| ((v >>> 8) &&& 0x0000ff00#32) |||
    ((v <<< 8) &&& 0x00ff0000#32) ||| ((v <<< 24) &&& 0xff000000#32)

/-- `OqGet16`. -/
def oqGet16 (m : ℕ → Byte) (buf : ℕ) : Word := (load16 m buf).setWidth 32

/-- `OqGet32`. -/
def oqGet32 (m : ℕ → Byte) (buf : ℕ) : Word := load32 m buf

/-- `OqGet64`. -/
def oqGet64 (m : ℕ → Byte) (buf : ℕ) : BitVec 64 :=
  ((oqGet32 m buf).setWidth 64 <<< 0) ||| ((oqGet32 m (buf + 4)).setWidth 64 <<< 32)

/-- `OqPut16`: a store through a `u16 *`. -/
def oqPut16 (buf : ℕ) (v : Word) : List (ℕ × Byte) := stretch buf (bytesOf 2 v)

/-- `OqPut32`: a store through a `u32 *`. -/
def oqPut32 (buf : ℕ) (v : Word) : List (ℕ × Byte) := stretch buf (bytesOf 4 v)

/-- `OqPut64`. -/
def oqPut64 (buf : ℕ) (v : BitVec 64) : List (ℕ × Byte) :=
  oqPut32 buf ((v >>> 0).setWidth 32) ++ oqPut32 (buf + 4) ((v >>> 32).setWidth 32)

/-- `OqGet16Big`. -/
def oqGet16Big (m : ℕ → Byte) (buf : ℕ) : Word :=
  ((swap16 ((load16 m buf).setWidth 32)).setWidth 16).setWidth 32

/-- `OqGet32Big`. -/
def oqGet32Big (m : ℕ → Byte) (buf : ℕ) : Word := swap32 (load32 m buf)

/-- `OqGet64Big`. The halves are read with `OqGet32`. -/
def oqGet64Big (m : ℕ → Byte) (buf : ℕ) : BitVec 64 :=
  ((oqGet32 m buf).setWidth 64 <<< 32) ||| ((oqGet32 m (buf + 4)).setWidth 64 <<< 0)

/-- `OqPut16Big`. -/
def oqPut16Big (buf : ℕ) (v : Word) : List (ℕ × Byte) := stretch buf (bytesOf 2 (swap16 v))

/-- `OqPut32Big`. -/
def oqPut32Big (buf : ℕ) (v : Word) : List (ℕ × Byte) := stretch buf (bytesOf 4 (swap32 v))

/-- `OqPut64Big`. The halves are written with `OqPut32`. -/
def oqPut64Big (buf : ℕ) (v : BitVec 64) : List (ℕ × Byte) :=
  oqPut32 buf ((v >>> 32).setWidth 32) ++ oqPut32 (buf + 4) ((v >>> 0).setWidth 32)

/-! ## What the accessors are for -/

/-- The stores put a value of `n` bytes at `buf`, in an order, and change
nothing else, and a getter finds it there. -/
def Puts (order : List Byte → ℕ) (get : (ℕ → Byte) → ℕ) (m : ℕ → Byte) (buf n : ℕ)
    (ss : List (ℕ × Byte)) (v : ℕ) : Prop :=
  get (after m ss) = v % 2 ^ (8 * n) ∧ order (block (after m ss) buf n) = v % 2 ^ (8 * n) ∧
    ∀ i, i < buf ∨ buf + n ≤ i → after m ss i = m i

/-- Each accessor does what its name says, on this buffer and with these
values. -/
structure Exact (m : ℕ → Byte) (buf : ℕ) (v : Word) (v' : BitVec 64) : Prop where
  get16 : (oqGet16 m buf).toNat = little (block m buf 2)
  get32 : (oqGet32 m buf).toNat = little (block m buf 4)
  get64 : (oqGet64 m buf).toNat = little (block m buf 8)
  put16 : Puts little (fun m => (oqGet16 m buf).toNat) m buf 2 (oqPut16 buf v) v.toNat
  put32 : Puts little (fun m => (oqGet32 m buf).toNat) m buf 4 (oqPut32 buf v) v.toNat
  put64 : Puts little (fun m => (oqGet64 m buf).toNat) m buf 8 (oqPut64 buf v') v'.toNat
  get16Big : (oqGet16Big m buf).toNat = big (block m buf 2)
  get32Big : (oqGet32Big m buf).toNat = big (block m buf 4)
  get64Big : (oqGet64Big m buf).toNat = big (block m buf 8)
  put16Big : Puts big (fun m => (oqGet16Big m buf).toNat) m buf 2 (oqPut16Big buf v) v.toNat
  put32Big : Puts big (fun m => (oqGet32Big m buf).toNat) m buf 4 (oqPut32Big buf v) v.toNat
  put64Big : Puts big (fun m => (oqGet64Big m buf).toNat) m buf 8 (oqPut64Big buf v') v'.toNat

/-- Both halves of eight bytes read the same from either end. -/
def HalvesMirrored (bs : List Byte) : Prop :=
  (bs.take 4).reverse = bs.take 4 ∧ (bs.drop 4).reverse = bs.drop 4

instance (bs : List Byte) : Decidable (HalvesMirrored bs) :=
  inferInstanceAs (Decidable (_ ∧ _))

variable {m : ℕ → Byte} {buf : ℕ}

/-! ## Bytes of the patterns -/

theorem bytesOf_byte (b : Byte) : bytesOf 1 b = [b] := by
  simp [bytesOf]

theorem bytesOf_load16 : bytesOf 2 (load16 m buf) = block m buf 2 := by
  rw [load16, bytesOf_append (n := 1) 1, bytesOf_byte, bytesOf_byte]
  rfl

theorem bytesOf_load32 : bytesOf 4 (load32 m buf) = block m buf 4 := by
  rw [load32, bytesOf_append (n := 1) 3, bytesOf_append (n := 1) 2, bytesOf_append (n := 1) 1]
  simp only [bytesOf_byte]
  rfl

/-- The mask of one byte. -/
def byteMask (k : ℕ) : Word := (BitVec.allOnes 8).setWidth 32 <<< (8 * k)

theorem getLsbD_byteMask {i j k : ℕ} (hk : k < 4) (hi : i < 8) :
    (byteMask j).getLsbD (8 * k + i) = decide (j = k) := by
  rw [byteMask, BitVec.getLsbD_shiftLeft, BitVec.getLsbD_setWidth, BitVec.getLsbD_allOnes]
  rcases lt_trichotomy j k with h | rfl | h
  · simp [h.ne, show ¬ 8 * k + i - 8 * j < 8 by omega]
  · simp [hi, show 8 * j + i < 32 by omega, show i < 32 by omega]
  · simp [h.ne', show 8 * k + i < 8 * j by omega]

/-- **Four bytes turned around.** -/
theorem bytesOf_swap32 (v : Word) : bytesOf 4 (swap32 v) = (bytesOf 4 v).reverse := by
  have h₀ : 0x000000ff#32 = byteMask 0 := by decide
  have h₁ : 0x0000ff00#32 = byteMask 1 := by decide
  have h₂ : 0x00ff0000#32 = byteMask 2 := by decide
  have h₃ : 0xff000000#32 = byteMask 3 := by decide
  refine bytesOf_eq_reverse fun k hk => BitVec.eq_of_getLsbD_eq fun i hi => ?_
  simp only [swap32, h₀, h₁, h₂, h₃, BitVec.getLsbD_extractLsb', BitVec.getLsbD_or,
    BitVec.getLsbD_and, getLsbD_byteMask hk hi, BitVec.getLsbD_ushiftRight,
    BitVec.getLsbD_shiftLeft]
  obtain rfl | rfl | rfl | rfl : k = 0 ∨ k = 1 ∨ k = 2 ∨ k = 3 := by omega
  · simp [hi]
  · simp [hi, ← Nat.add_assoc]
  · simp [hi, show 16 + i < 32 by omega, show ¬ 16 + i < 8 by omega,
      show 16 + i - 8 = 8 + i by omega]
  · simp [hi, show 24 + i < 32 by omega]

/-- **Two bytes turned around.** -/
theorem bytesOf_swap16 (v : Word) : bytesOf 2 (swap16 v) = (bytesOf 2 v).reverse := by
  have h₀ : 0x000000ff#32 = byteMask 0 := by decide
  have h₁ : 0x0000ff00#32 = byteMask 1 := by decide
  refine bytesOf_eq_reverse fun k hk => BitVec.eq_of_getLsbD_eq fun i hi => ?_
  simp only [swap16, h₀, h₁, BitVec.getLsbD_extractLsb', BitVec.getLsbD_or,
    BitVec.getLsbD_and, getLsbD_byteMask (show k < 4 by omega) hi, BitVec.getLsbD_ushiftRight,
    BitVec.getLsbD_shiftLeft]
  obtain rfl | rfl : k = 0 ∨ k = 1 := by omega
  · simp [hi]
  · simp [hi, show 8 + i < 32 by omega]

/-- Two halves put together. -/
theorem halves_eq_append (lo hi : Word) :
    (lo.setWidth 64 <<< 0) ||| (hi.setWidth 64 <<< 32) = (hi ++ lo : BitVec (32 + 32)) := by
  refine BitVec.eq_of_getLsbD_eq fun i hi => ?_
  simp only [BitVec.getLsbD_or, BitVec.getLsbD_shiftLeft, BitVec.getLsbD_setWidth,
    BitVec.getLsbD_append]
  by_cases hlt : i < 32
  · simp [hlt, hi]
  · simp [hlt, hi, show i - 32 < 64 by omega, BitVec.getLsbD_of_ge lo i (by omega)]

theorem bytesOf_halves (lo hi : Word) :
    bytesOf 8 ((lo.setWidth 64 <<< 0) ||| (hi.setWidth 64 <<< 32)) =
      bytesOf 4 lo ++ bytesOf 4 hi := by
  rw [halves_eq_append]
  exact bytesOf_append (n := 4) 4

/-! ## What the getters read -/

theorem toNat_oqGet16 : (oqGet16 m buf).toNat = little (block m buf 2) := by
  rw [← bytesOf_load16, little_bytesOf_all, oqGet16, BitVec.toNat_setWidth_of_le (by decide)]

theorem toNat_oqGet32 : (oqGet32 m buf).toNat = little (block m buf 4) := by
  rw [← bytesOf_load32, little_bytesOf_all, oqGet32]

theorem bytesOf_oqGet64 : bytesOf 8 (oqGet64 m buf) = block m buf 8 := by
  rw [oqGet64, bytesOf_halves, oqGet32, oqGet32, bytesOf_load32, bytesOf_load32, ← block_add]

theorem toNat_oqGet64 : (oqGet64 m buf).toNat = little (block m buf 8) := by
  rw [← bytesOf_oqGet64, little_bytesOf_all]

theorem toNat_oqGet16Big : (oqGet16Big m buf).toNat = big (block m buf 2) := by
  have hbytes : bytesOf 2 (swap16 ((load16 m buf).setWidth 32)) = (block m buf 2).reverse := by
    rw [bytesOf_swap16, bytesOf_setWidth _ (by decide), bytesOf_load16]
  rw [big, ← hbytes, little_bytesOf, oqGet16Big, BitVec.toNat_setWidth_of_le (by decide),
    BitVec.toNat_setWidth]

theorem toNat_oqGet32Big : (oqGet32Big m buf).toNat = big (block m buf 4) := by
  rw [big, ← bytesOf_load32, ← bytesOf_swap32, little_bytesOf_all, oqGet32Big]

/-- What `OqGet32Big` reads, the highest byte first. -/
theorem oqGet32Big_eq : oqGet32Big m buf =
    (m buf ++ m (buf + 1) ++ m (buf + 2) ++ m (buf + 3) : BitVec (8 + 8 + 8 + 8)) := by
  rw [← BitVec.toNat_inj, ← little_bytesOf_all (n := 4), ← little_bytesOf_all (n := 4), oqGet32Big,
    bytesOf_swap32, bytesOf_load32, bytesOf_append (n := 1) 3, bytesOf_append (n := 1) 2,
    bytesOf_append (n := 1) 1]
  simp only [bytesOf_byte]
  rfl

/-- What `OqPut32Big` stores. -/
theorem oqPut32Big_eq (v : Word) : oqPut32Big buf v =
    [(buf, (v >>> 24).setWidth 8), (buf + 1, (v >>> 16).setWidth 8),
      (buf + 2, (v >>> 8).setWidth 8), (buf + 3, v.setWidth 8)] := by
  have hlow : v.setWidth 8 = v.extractLsb' 0 8 := BitVec.setWidth_eq_extractLsb' (by decide)
  rw [oqPut32Big, bytesOf_swap32, hlow]
  simp only [BitVec.setWidth_ushiftRight_eq_extractLsb]
  rfl

/-- The getter for 64 bits reads the halves in little endian. -/
theorem bytesOf_oqGet64Big :
    bytesOf 8 (oqGet64Big m buf) = block m (buf + 4) 4 ++ block m buf 4 := by
  rw [oqGet64Big, BitVec.or_comm, bytesOf_halves, oqGet32, oqGet32, bytesOf_load32,
    bytesOf_load32]

/-- Eight bytes with their halves exchanged are in reverse when the halves are
mirrored. -/
theorem halves_swapped_iff {bs cs : List Byte} (hbs : bs.length = 4) :
    cs ++ bs = (bs ++ cs).reverse ↔ HalvesMirrored (bs ++ cs) := by
  rw [HalvesMirrored, ← hbs, List.take_left, List.drop_left, List.reverse_append]
  constructor
  · intro h
    obtain ⟨hcs', hbs'⟩ := List.append_inj h List.length_reverse.symm
    exact ⟨hbs'.symm, hcs'.symm⟩
  · rintro ⟨hbs', hcs'⟩
    rw [hbs', hcs']

theorem toNat_oqGet64Big_iff :
    (oqGet64Big m buf).toNat = big (block m buf 8) ↔ HalvesMirrored (block m buf 8) := by
  rw [← little_bytesOf_all (n := 8), bytesOf_oqGet64Big, big, little_inj (by simp),
    block_add 4 4, halves_swapped_iff block_length]

/-! ## What the stores put -/

theorem block_place_self {n : ℕ} {l : List Byte} (hl : l.length = n) :
    block (place m buf l) buf n = l := by
  have hread := block_place (m := m) (a := buf) (l := l) (k := 0) (n := n) (by omega)
  rwa [Nat.add_zero, List.drop_zero, ← hl, List.take_length, hl] at hread

/-- A value is put where the bytes stored are its own in the order. -/
theorem puts_iff {order : List Byte → ℕ} {get : (ℕ → Byte) → ℕ} {n v : ℕ} {l : List Byte}
    (hl : l.length = n)
    (hget : order l = v % 2 ^ (8 * n) → get (place m buf l) = v % 2 ^ (8 * n)) :
    Puts order get m buf n (stretch buf l) v ↔ order l = v % 2 ^ (8 * n) := by
  rw [Puts, after_stretch, block_place_self hl]
  constructor
  · rintro ⟨-, horder, -⟩
    exact horder
  · refine fun horder => ⟨hget horder, horder, ?_⟩
    rintro i (hi | hi)
    · exact place_of_lt hi
    · exact place_of_ge (by omega)

/-- A getter for the order finds it. -/
theorem puts_of_getter {order : List Byte → ℕ} {get : (ℕ → Byte) → ℕ} {n v : ℕ} {l : List Byte}
    (hl : l.length = n) (hget : ∀ m, get m = order (block m buf n))
    (horder : order l = v % 2 ^ (8 * n)) : Puts order get m buf n (stretch buf l) v := by
  refine (puts_iff hl fun _ => ?_).2 horder
  rw [hget, block_place_self hl, horder]

/-- The bytes of the halves of a value. -/
theorem bytesOf_split (v : BitVec 64) : bytesOf 8 v =
    bytesOf 4 ((v >>> 0).setWidth 32) ++ bytesOf 4 ((v >>> 32).setWidth 32) := by
  rw [BitVec.ushiftRight_zero, bytesOf_setWidth _ (by decide), bytesOf_setWidth _ (by decide)]
  exact bytesOf_add 4 4 v

theorem oqPut64_eq (v : BitVec 64) : oqPut64 buf v = stretch buf (bytesOf 8 v) := by
  rw [oqPut64, oqPut32, oqPut32, bytesOf_split, stretch_append, bytesOf_length]

theorem oqPut64Big_eq (v : BitVec 64) : oqPut64Big buf v = stretch buf
    (bytesOf 4 ((v >>> 32).setWidth 32) ++ bytesOf 4 ((v >>> 0).setWidth 32)) := by
  rw [oqPut64Big, oqPut32, oqPut32, stretch_append, bytesOf_length]

/-- **The pair for 64 bits.** The getter finds what was put, but the bytes are
in the order of the name only when the halves of the value are mirrored. -/
theorem puts_oqPut64Big_iff (v : BitVec 64) :
    Puts big (fun m => (oqGet64Big m buf).toNat) m buf 8 (oqPut64Big buf v) v.toNat ↔
      HalvesMirrored (bytesOf 8 v) := by
  rw [oqPut64Big_eq, bytesOf_split]
  set hi := bytesOf 4 ((v >>> 32).setWidth 32) with hhi
  set lo := bytesOf 4 ((v >>> 0).setWidth 32) with hlo
  have hhilen : hi.length = 4 := bytesOf_length _
  have hlolen : lo.length = 4 := bytesOf_length _
  have hget : (oqGet64Big (place m buf (hi ++ lo)) buf).toNat = v.toNat % 2 ^ (8 * 8) := by
    have hfirst : block (place m buf (hi ++ lo)) buf 4 = hi := by
      have hread := block_place (m := m) (a := buf) (l := hi ++ lo) (k := 0) (n := 4)
        (by simp [hhilen])
      rwa [Nat.add_zero, List.drop_zero, List.take_left' hhilen] at hread
    have hsecond : block (place m buf (hi ++ lo)) (buf + 4) 4 = lo := by
      rw [block_place (by simp [hhilen, hlolen]), List.drop_left' hhilen,
        List.take_of_length_le hlolen.le]
    rw [← little_bytesOf_all (n := 8), ← little_bytesOf, bytesOf_oqGet64Big, hfirst, hsecond,
      bytesOf_split]
  rw [puts_iff (by simp [hhilen, hlolen]) fun _ => hget, ← little_bytesOf, bytesOf_split,
    big, little_inj (by simp [hhilen, hlolen]), ← halves_swapped_iff hlolen, List.reverse_eq_iff]

/-- **Which accessors are exact.** All are but the getter and the putter for
64 bits in big endian, and these are on buffers and for values whose halves
read the same from either end. -/
theorem byteOrder_iff (m : ℕ → Byte) (buf : ℕ) (v : Word) (v' : BitVec 64) :
    Exact m buf v v' ↔
      HalvesMirrored (block m buf 8) ∧ HalvesMirrored (bytesOf 8 v') := by
  constructor
  · intro h
    exact ⟨toNat_oqGet64Big_iff.1 h.get64Big, (puts_oqPut64Big_iff v').1 h.put64Big⟩
  · rintro ⟨hbuf, hv⟩
    refine ⟨toNat_oqGet16, toNat_oqGet32, toNat_oqGet64, ?_, ?_, ?_, toNat_oqGet16Big,
      toNat_oqGet32Big, toNat_oqGet64Big_iff.2 hbuf, ?_, ?_, (puts_oqPut64Big_iff v').2 hv⟩
    · exact puts_of_getter (bytesOf_length _) (fun _ => toNat_oqGet16) (little_bytesOf 2 v)
    · exact puts_of_getter (bytesOf_length _) (fun _ => toNat_oqGet32) (little_bytesOf 4 v)
    · rw [oqPut64_eq]
      exact puts_of_getter (bytesOf_length _) (fun _ => toNat_oqGet64) (little_bytesOf 8 v')
    · refine puts_of_getter (bytesOf_length _) (fun _ => toNat_oqGet16Big) ?_
      rw [big, bytesOf_swap16, List.reverse_reverse, little_bytesOf]
    · refine puts_of_getter (bytesOf_length _) (fun _ => toNat_oqGet32Big) ?_
      rw [big, bytesOf_swap32, List.reverse_reverse, little_bytesOf]

/-- The bytes 0 to 7 in order, and the value 1. -/
theorem oqGet64Big_counts : let m : ℕ → Byte := fun i => BitVec.ofNat 8 i
    oqGet64Big m 0 = 0x0302010007060504#64 ∧ big (block m 0 8) = 0x0001020304050607 ∧
      block (after m (oqPut64Big 0 1#64)) 0 8 = [0#8, 0#8, 0#8, 0#8, 1#8, 0#8, 0#8, 0#8] ∧
      ¬ Exact m 0 0#32 1#64 := by
  intro m
  have hget : oqGet64Big m 0 = 0x0302010007060504#64 := by decide
  have hbig : big (block m 0 8) = 0x0001020304050607 := by decide
  refine ⟨hget, hbig, by decide, fun h => ?_⟩
  have hexact := h.get64Big
  rw [hget, hbig] at hexact
  exact absurd hexact (by decide)

end Types

end AntTracer
