import AntTracer.Misc.ByteOrder
import Mathlib.Data.Nat.Digits.Lemmas

/-!
# The base-85 coding of `b85.c`

`BinaryToBase85` turns each four bytes into five characters, and a rest of
one to three bytes into one character more than its bytes; `Base85ToBinary`
goes back. Buffers are memories read through a pointer, and what is written
is given by the stores in order. The buffers of a call lie in the address
space together, so that no count of theirs comes near the bounds of `int`.

A group of characters denotes a number by its digits, the first the highest.
`foldlM_b85Step` says that it is read as long as no product on the way leaves
32 bits, and `roundWord_div` that the rounding of a short group gives the word
it was made from.
-/

namespace AntTracer

namespace App

open Stores
open AntTracer.Types (oqGet32Big oqPut32Big)

/-! ## The source -/

/-- `map0`: the digit of a printable character, from `0x20` on. -/
def map0 : List ℤ :=
  [
    -1,   0,  -1,  -1,    -1,   1,   2,   3,        --  0x20
     4,   5,   6,  -1,     7,   8,   9,  10,        --  0x28
    11,  12,  13,  14,    15,  16,  17,  18,        --  0x30
    19,  20,  21,  22,    23,  24,  25,  26,        --  0x38
    27,  28,  -1,  29,    30,  31,  32,  33,        --  0x40
    34,  35,  36,  37,    38,  39,  40,  -1,        --  0x48
    41,  42,  -1,  43,    44,  45,  46,  47,        --  0x50
    48,  49,  50,  51,    -1,  52,  -1,  53,        --  0x58
    54,  55,  56,  57,    58,  59,  60,  61,        --  0x60
    62,  63,  64,  65,    66,  67,  68,  69,        --  0x68
    70,  71,  72,  73,    74,  75,  76,  77,        --  0x70
    78,  79,  80,  81,    82,  83,  84,  -1]        --  0x78

/-- `map1`: the character of a digit. -/
def map1 : List Byte :=
  [
    0x21, 0x25, 0x26, 0x27, 0x28, 0x29, 0x2a, 0x2c, 0x2d, 0x2e,   --  !%&'()*,-.
    0x2f, 0x30, 0x31, 0x32, 0x33, 0x34, 0x35, 0x36, 0x37, 0x38,   --  /012345678
    0x39, 0x3a, 0x3b, 0x3c, 0x3d, 0x3e, 0x3f, 0x40, 0x41, 0x43,   --  9:;<=>?@AC
    0x44, 0x45, 0x46, 0x47, 0x48, 0x49, 0x4a, 0x4b, 0x4c, 0x4d,   --  DEFGHIJKLM
    0x4e, 0x50, 0x51, 0x53, 0x54, 0x55, 0x56, 0x57, 0x58, 0x59,   --  NPQSTUVWXY
    0x5a, 0x5b, 0x5d, 0x5f, 0x60, 0x61, 0x62, 0x63, 0x64, 0x65,   --  Z[]_`abcde
    0x66, 0x67, 0x68, 0x69, 0x6a, 0x6b, 0x6c, 0x6d, 0x6e, 0x6f,   --  fghijklmno
    0x70, 0x71, 0x72, 0x73, 0x74, 0x75, 0x76, 0x77, 0x78, 0x79,   --  pqrstuvwxy
    0x7a, 0x7b, 0x7c, 0x7d, 0x7e]                                 --  z{|}~

/-- `bin_to_b85`, with its stores. -/
def binToB85 (cnt : ℕ) (w : Word) (s : ℕ) : ℕ × List (ℕ × Byte) :=
  let digit (w : Word) : Byte := map1.getD (w % 85#32).toNat 0#8
  let w4 := w
  let w3 := w4 / 85#32
  let w2 := w3 / 85#32
  let w1 := w2 / 85#32
  let w0 := w1 / 85#32
  (cnt + 1, [(s + 4, digit w4), (s + 3, digit w3), (s + 2, digit w2), (s + 1, digit w1),
    (s, digit w0)])

/-- The conversion of `size` bytes, at least one, and the line end after it:
the bulk while there are more than four bytes, then the rest. -/
def binaryToBase85From (m : ℕ → Byte) : ℕ → ℕ → ℕ → ℕ × List (ℕ × Byte)
  | pTo, pFrom, size + 5 =>
    let x := binToB85 4 (oqGet32Big m pFrom) pTo
    let r := binaryToBase85From m (pTo + x.1) (pFrom + 4) (size + 1)
    (r.1, x.2 ++ r.2)
  | pTo, pFrom, size =>
    let sh := (4 - size) * 8
    let mask : Word := -(1#32 <<< sh)
    let x := binToB85 size (oqGet32Big m pFrom &&& mask) pTo
    let pTo := pTo + x.1
    (pTo + 2, x.2 ++ [(pTo, 0x0d#8), (pTo + 1, 0x0a#8)])

/-- `BinaryToBase85`: the value returned and the stores in `to`. -/
def binaryToBase85 (m : ℕ → Byte) (size : ℕ) : ℕ × List (ℕ × Byte) :=
  if size > 0 then
    let r := binaryToBase85From m 1 0 size
    (r.1, (0, 0x5f#8) :: r.2 ++ [(r.1, 0#8)])
  else (0, [(0, 0#8)])

/-- The loop body of `b85_to_bin`. -/
def b85Step (n : Word) (ch : Byte) : Option Word :=
  let x := n * 85#32
  if x < n then none
  else
    let c : ℤ := ch.toNat - 0x20
    if c ≥ 0 ∧ c ≤ 0x5f then
      let c := map0.getD c.toNat (-1)
      if c < 0 then none else some (x + BitVec.ofInt 32 c)
    else none

/-- `b85_to_bin`: the value returned and the word stored; nothing is stored
when it returns zero. -/
def b85ToBin (cnt : ℕ) (m : ℕ → Byte) (s : ℕ) : Option (ℕ × Word) :=
  if cnt ≤ 1 then none
  else do
    let n ← (block m s cnt).foldlM b85Step 0#32
    some (cnt - 1,
      if cnt = 2 then (n * (85#32 * 85#32 * 85#32) + 0xffffff#32) &&& 0xff000000#32
      else if cnt = 3 then (n * (85#32 * 85#32) + 0xffff#32) &&& 0xffff0000#32
      else if cnt = 4 then (n * 85#32 + 0xff#32) &&& 0xffffff00#32
      else n)

/-- The loop of `Base85ToBinary`. A round takes a character at least, so there
are no more rounds than characters. -/
def base85ToBinaryFrom (m : ℕ → Byte) : ℕ → ℕ → ℕ → ℕ → ℕ → ℕ × List (ℕ × Byte)
  | 0, _, _, _, cnt => (cnt, [])
  | rounds + 1, pTo, pFrom, size, cnt =>
    if size > 0 then
      let sz := if size > 5 then 5 else size
      match b85ToBin sz m pFrom with
      | none => (0, [])
      | some (x, w) =>
        let r := base85ToBinaryFrom m rounds (pTo + 4) (pFrom + sz) (size - sz) (cnt + x)
        (r.1, oqPut32Big pTo w ++ r.2)
    else (cnt, [])

/-- `Base85ToBinary`: the value returned and the stores in `to`. -/
def base85ToBinary (m : ℕ → Byte) (size : ℕ) : ℕ × List (ℕ × Byte) :=
  base85ToBinaryFrom m size 0 0 size 0

/-! ## The alphabet -/

/-- The digit of a character of the alphabet. -/
def b85Digit (c : Byte) : ℕ := map1.idxOf c

/-- The number that characters denote, the first digit the highest. -/
def b85Value (cs : List Byte) : ℕ := Nat.ofDigits 85 (cs.map b85Digit).reverse

theorem b85Digit_lt {c : Byte} (h : c ∈ map1) : b85Digit c < 85 := List.idxOf_lt_length_iff.2 h

/-- A digit's character has that digit. -/
theorem map0_of_map1 : ∀ k < 85, 0x20 ≤ (map1.getD k 0#8).toNat ∧
    (map1.getD k 0#8).toNat ≤ 0x7f ∧ map0.getD ((map1.getD k 0#8).toNat - 0x20) (-1) = k := by
  decide +kernel

/-- A character that has a digit is that digit's. -/
theorem map1_of_map0 : ∀ i < 0x60, 0 ≤ map0.getD i (-1) →
    map1[(map0.getD i (-1)).toNat]? = some (BitVec.ofNat 8 (i + 0x20)) := by
  decide +kernel

/-- **The two tables agree.** -/
theorem b85Step_eq (n : Word) (c : Byte) : b85Step n c = if n * 85#32 < n then none
    else if c ∈ map1 then some (n * 85#32 + BitVec.ofNat 32 (b85Digit c)) else none := by
  have hsub : ((c.toNat : ℤ) - 0x20).toNat = c.toNat - 0x20 := by omega
  rw [b85Step]
  dsimp only
  rw [hsub]
  by_cases hx : n * 85#32 < n
  · rw [if_pos hx, if_pos hx]
  rw [if_neg hx, if_neg hx]
  by_cases hc : c ∈ map1
  · have hget : map1.getD (b85Digit c) 0#8 = c := by
      rw [List.getD_eq_getElem _ _ (b85Digit_lt hc)]
      exact List.getElem_idxOf _
    obtain ⟨hlo, hhi, hdigit⟩ := map0_of_map1 (b85Digit c) (b85Digit_lt hc)
    rw [hget] at hlo hhi hdigit
    rw [if_pos hc, if_pos (by omega), hdigit, if_neg (by omega), BitVec.ofInt_natCast]
  · rw [if_neg hc]
    split
    · rename_i hrange
      have hneg : map0.getD (c.toNat - 0x20) (-1) < 0 := by
        by_contra hdigit
        have hchar := map1_of_map0 (c.toNat - 0x20) (by omega) (not_lt.1 hdigit)
        rw [Nat.sub_add_cancel (by omega), BitVec.ofNat_toNat, BitVec.setWidth_eq] at hchar
        exact hc (List.mem_of_getElem? hchar)
      exact if_pos hneg
    · rfl

theorem b85Value_concat (cs : List Byte) (c : Byte) :
    b85Value (cs ++ [c]) = 85 * b85Value cs + b85Digit c := by
  rw [b85Value, List.map_append, List.reverse_append, List.map_singleton, List.reverse_singleton,
    List.singleton_append, Nat.ofDigits_cons, Nat.add_comm]
  rfl

theorem b85Value_lt {cs : List Byte} (h : ∀ c ∈ cs, c ∈ map1) :
    b85Value cs < 85 ^ cs.length := by
  have hdigits := Nat.ofDigits_lt_base_pow_length' (b := 83) (l := (cs.map b85Digit).reverse)
  simp only [List.length_reverse, List.length_map, List.mem_reverse, List.mem_map,
    forall_exists_index, and_imp, forall_apply_eq_imp_iff₂] at hdigits
  exact hdigits fun c hc => b85Digit_lt (h c hc)

/-! ## Reading a group -/

/-- A character outside the alphabet ends the reading. -/
theorem foldlM_b85Step_of_notMem {cs : List Byte} (h : ∃ c ∈ cs, c ∉ map1) (n : Word) :
    cs.foldlM b85Step n = none := by
  induction cs generalizing n with
  | nil => simp at h
  | cons c cs ih =>
    rw [List.foldlM_cons, b85Step_eq]
    by_cases hc : c ∈ map1
    · have hrest : ∃ c ∈ cs, c ∉ map1 := by
        obtain ⟨c', hc', hnot⟩ := h
        rcases List.mem_cons.1 hc' with rfl | hmem
        · exact absurd hc hnot
        · exact ⟨c', hmem, hnot⟩
      rw [if_pos hc]
      split_ifs
      · rfl
      · exact ih hrest _
    · rw [if_neg hc, ite_self]
      rfl

/-- Characters are read to the number they denote while the products on the
way fit 32 bits. -/
theorem foldlM_b85Step {cs : List Byte} (h : ∀ c ∈ cs, c ∈ map1)
    (hfit : ∀ k < cs.length, 85 * b85Value (cs.take k) < 2 ^ 32) :
    cs.foldlM b85Step 0#32 = some (BitVec.ofNat 32 (b85Value cs)) := by
  induction cs using List.reverseRecOn with
  | nil => rfl
  | append_singleton l c ih =>
    have hl : 85 * b85Value l < 2 ^ 32 := by
      simpa using hfit l.length (by simp)
    have hread : l.foldlM b85Step 0#32 = some (BitVec.ofNat 32 (b85Value l)) := by
      refine ih (fun c' hc' => h c' (List.mem_append_left _ hc')) fun k hk => ?_
      have := hfit k (by rw [List.length_append]; omega)
      rwa [List.take_append_of_le_length hk.le] at this
    have hx : ¬ BitVec.ofNat 32 (b85Value l) * 85#32 < BitVec.ofNat 32 (b85Value l) := by
      rw [BitVec.lt_def, BitVec.toNat_mul, BitVec.toNat_ofNat, BitVec.toNat_ofNat,
        Nat.mod_eq_of_lt (show b85Value l < 2 ^ 32 by omega),
        Nat.mod_eq_of_lt (show b85Value l * 85 < 2 ^ 32 by omega)]
      omega
    rw [List.foldlM_append, hread, Option.bind_eq_bind, Option.bind_some, List.foldlM_cons,
      b85Step_eq, if_neg hx, if_pos (h c (by simp)), b85Value_concat, BitVec.ofNat_add,
      BitVec.ofNat_mul, BitVec.mul_comm]
    rfl

/-- What a group of `5 - j` characters makes of the number it denotes. -/
def roundWord (j : ℕ) (n : Word) : Word :=
  (n * BitVec.ofNat 32 (85 ^ j) + BitVec.ofNat 32 (2 ^ (8 * j) - 1)) &&& -(1#32 <<< (8 * j))

/-- The four ways to finish a group are one. -/
theorem b85ToBin_eq {cnt : ℕ} (h : 2 ≤ cnt) (h' : cnt ≤ 5) (m : ℕ → Byte) (s : ℕ) :
    b85ToBin cnt m s = ((block m s cnt).foldlM b85Step 0#32).map
      fun n => (cnt - 1, roundWord (5 - cnt) n) := by
  rw [b85ToBin, if_neg (by omega), Option.bind_eq_bind, Option.map_eq_bind]
  congr 1
  funext n
  have hcnt : cnt = 2 ∨ cnt = 3 ∨ cnt = 4 ∨ cnt = 5 := by omega
  rcases hcnt with rfl | rfl | rfl | rfl
  · rfl
  · rfl
  · rfl
  · have hround : roundWord 0 n = n := by
      rw [roundWord, show (-(1#32 <<< (8 * 0))) = BitVec.allOnes 32 by decide, BitVec.and_allOnes]
      simp
    simp [hround]

/-! ## Masks -/

/-- Masking the low bits away rounds down. -/
theorem toNat_and_highBits (x : Word) {j : ℕ} (hj : j < 32) :
    (x &&& -(1#32 <<< j)).toNat = x.toNat / 2 ^ j * 2 ^ j := by
  have hbits : ∀ j < 32, ∀ i < 32, (-(1#32 <<< j)).getLsbD i = decide (j ≤ i) := by
    decide +kernel
  have hshift : x &&& -(1#32 <<< j) = (x >>> j) <<< j := by
    ext i hi
    rw [← BitVec.getLsbD_eq_getElem, ← BitVec.getLsbD_eq_getElem, BitVec.getLsbD_and,
      hbits j hj i hi, BitVec.getLsbD_shiftLeft, BitVec.getLsbD_ushiftRight]
    by_cases hij : j ≤ i
    · simp [hi, hij, show ¬ i < j by omega]
    · simp [hij, show i < j by omega]
  have hle : x.toNat / 2 ^ j * 2 ^ j < 2 ^ 32 := (Nat.div_mul_le_self ..).trans_lt x.isLt
  rw [hshift, BitVec.toNat_shiftLeft, BitVec.toNat_ushiftRight, Nat.shiftRight_eq_div_pow,
    Nat.shiftLeft_eq, Nat.mod_eq_of_lt hle]

/-- A multiple of `d` is what its quotient by something no larger is rounded
up to. -/
theorem round_up {w b d : ℕ} (hb : 0 < b) (hbd : b ≤ d) (hd : d ∣ w) :
    (w / b * b + (d - 1)) / d * d = w := by
  obtain ⟨q, rfl⟩ := hd
  have hlow : d * q / b * b ≤ d * q := Nat.div_mul_le_self ..
  have hhigh : d * q < d * q / b * b + b := by
    have := Nat.div_add_mod' (d * q) b
    have := Nat.mod_lt (d * q) hb
    omega
  have hdiv : (d * q / b * b + (d - 1)) / d = q := by
    refine Nat.div_eq_of_lt_le ?_ ?_
    · rw [Nat.mul_comm q d]
      omega
    · rw [Nat.succ_mul, Nat.mul_comm q d]
      omega
  rw [hdiv, Nat.mul_comm]

/-- **The rounding of a short group.** From the leading digits of a word whose
low bytes are zero it makes the word again. -/
theorem roundWord_div {j : ℕ} (hj : j ≤ 3) {w : Word} (hw : 2 ^ (8 * j) ∣ w.toNat) :
    roundWord j (BitVec.ofNat 32 (w.toNat / 85 ^ j)) = w := by
  have hd : 2 ^ (8 * j) ≤ 2 ^ 24 := Nat.pow_le_pow_right (by decide) (by omega)
  have hbd : 85 ^ j ≤ 2 ^ (8 * j) := by
    rw [pow_mul]
    exact Nat.pow_le_pow_left (by decide) j
  have hround := round_up (pow_pos (by decide) j) hbd hw
  have hsum : w.toNat / 85 ^ j * 85 ^ j + (2 ^ (8 * j) - 1) < 2 ^ 32 := by
    -- the word is a multiple of the power, and so is `2 ^ 32`
    have hgap : w.toNat + 2 ^ (8 * j) ≤ 2 ^ 32 := by
      obtain ⟨q, hq⟩ := hw
      obtain ⟨r, hr⟩ : 2 ^ (8 * j) ∣ 2 ^ 32 := pow_dvd_pow 2 (by omega)
      have hlt := w.isLt
      rw [hq, hr] at hlt ⊢
      have hqr := Nat.lt_of_mul_lt_mul_left hlt
      calc 2 ^ (8 * j) * q + 2 ^ (8 * j) = 2 ^ (8 * j) * (q + 1) := by ring
        _ ≤ 2 ^ (8 * j) * r := Nat.mul_le_mul_left _ hqr
    have := Nat.div_mul_le_self w.toNat (85 ^ j)
    have : 0 < 2 ^ (8 * j) := Nat.two_pow_pos _
    omega
  apply BitVec.eq_of_toNat_eq
  have htoNat : (BitVec.ofNat 32 (w.toNat / 85 ^ j) * BitVec.ofNat 32 (85 ^ j) +
      BitVec.ofNat 32 (2 ^ (8 * j) - 1)).toNat = w.toNat / 85 ^ j * 85 ^ j + (2 ^ (8 * j) - 1) := by
    rw [← BitVec.ofNat_mul, ← BitVec.ofNat_add, BitVec.toNat_ofNat, Nat.mod_eq_of_lt hsum]
  rw [roundWord, toNat_and_highBits _ (by omega), htoNat, hround]

end App

end AntTracer
