import Mathlib.Data.Nat.Digits.Defs
import Mathlib.Data.Nat.Digits.Lemmas
import Mathlib.Tactic

/-!
# Bytes and the value they stand for

A list of bytes is a number in two ways, with its first byte as the lowest
digit (`little`) or as the highest (`big`). The bytes of a bit vector, the low
ones first (`bytesOf`), give it back (`little_bytesOf`), and as many bytes are
told apart by the number (`little_inj`); so a fact about the order of bytes
can be settled on lists.
-/

namespace AntTracer

namespace Bytes

variable {w : ℕ}

/-- The `n` low bytes of a value, the lowest first. -/
def bytesOf (n : ℕ) (v : BitVec w) : List (BitVec 8) :=
  (List.range n).map fun k => v.extractLsb' (8 * k) 8

/-- The number whose lowest byte is the first. -/
def little (bs : List (BitVec 8)) : ℕ := Nat.ofDigits 256 (bs.map BitVec.toNat)

/-- The number whose highest byte is the first. -/
def big (bs : List (BitVec 8)) : ℕ := little bs.reverse

variable {n k : ℕ} {bs cs : List (BitVec 8)}

@[simp] theorem bytesOf_length (v : BitVec w) : (bytesOf n v).length = n := by
  rw [bytesOf, List.length_map, List.length_range]

theorem bytesOf_succ (v : BitVec w) :
    bytesOf (n + 1) v = bytesOf n v ++ [v.extractLsb' (8 * n) 8] := by
  rw [bytesOf, List.range_succ, List.map_append]
  rfl

@[simp] theorem getElem_bytesOf {v : BitVec w} (h : k < (bytesOf n v).length) :
    (bytesOf n v)[k] = v.extractLsb' (8 * k) 8 := by
  simp [bytesOf]

/-- The low bytes, and those behind them. -/
theorem bytesOf_add (n j : ℕ) (v : BitVec w) :
    bytesOf (n + j) v = bytesOf n v ++ bytesOf j (v >>> (8 * n)) := by
  rw [bytesOf, List.range_add, List.map_append, List.map_map]
  refine congrArg (bytesOf n v ++ ·) (List.map_congr_left fun k _ => ?_)
  refine BitVec.eq_of_getLsbD_eq fun i hi => ?_
  simp [BitVec.getLsbD_extractLsb', BitVec.getLsbD_ushiftRight, Nat.mul_add, Nat.add_assoc]

theorem bytesOf_setWidth {w' : ℕ} (v : BitVec w) (h : 8 * n ≤ w') :
    bytesOf n (v.setWidth w') = bytesOf n v := by
  refine List.map_congr_left fun k hk => BitVec.eq_of_getLsbD_eq fun i hi => ?_
  have hlt := List.mem_range.1 hk
  simp [BitVec.getLsbD_extractLsb', show 8 * k + i < w' by omega]

/-- A value with the bytes of another in reverse. -/
theorem bytesOf_eq_reverse {u v : BitVec w}
    (h : ∀ k < n, u.extractLsb' (8 * k) 8 = v.extractLsb' (8 * (n - 1 - k)) 8) :
    bytesOf n u = (bytesOf n v).reverse := by
  refine List.ext_getElem (by simp) fun k hk _ => ?_
  rw [List.getElem_reverse, getElem_bytesOf, getElem_bytesOf, bytesOf_length]
  exact h k (by rwa [bytesOf_length] at hk)

theorem little_append (bs cs : List (BitVec 8)) :
    little (bs ++ cs) = little bs + 256 ^ bs.length * little cs := by
  rw [little, List.map_append, Nat.ofDigits_append, List.length_map]
  rfl

/-- As many bytes with the same value are the same. -/
theorem little_inj (h : bs.length = cs.length) : little bs = little cs ↔ bs = cs := by
  have hdigits : ∀ ds : List (BitVec 8), ∀ d ∈ ds.map BitVec.toNat, d < 256 := by
    intro ds d hd
    obtain ⟨b, -, rfl⟩ := List.mem_map.1 hd
    exact b.isLt
  constructor
  · intro heq
    have hmap := Nat.ofDigits_inj_of_len_eq (by decide)
      (by rw [List.length_map, List.length_map, h]) (hdigits bs) (hdigits cs) heq
    exact (List.map_inj_right fun _ _ => BitVec.eq_of_toNat_eq).1 hmap
  · rintro rfl
    rfl

/-- **The low bytes of a value** are the value, as far as they go. -/
theorem little_bytesOf (n : ℕ) (v : BitVec w) : little (bytesOf n v) = v.toNat % 2 ^ (8 * n) := by
  induction n with
  | zero => exact (Nat.mod_one _).symm
  | succ n ih =>
    have hone : little [v.extractLsb' (8 * n) 8] = v.toNat / 2 ^ (8 * n) % 2 ^ 8 := by
      rw [little, List.map_singleton, Nat.ofDigits_singleton, BitVec.extractLsb'_toNat,
        Nat.shiftRight_eq_div_pow]
    rw [bytesOf_succ, little_append, ih, hone, bytesOf_length, Nat.mul_succ, pow_add,
      Nat.mod_mul, show 256 = 2 ^ 8 from rfl, ← pow_mul]

/-- The bytes of all of a value are the value. -/
theorem little_bytesOf_all {v : BitVec (8 * n)} : little (bytesOf n v) = v.toNat := by
  rw [little_bytesOf, Nat.mod_eq_of_lt v.isLt]

theorem bytesOf_append {hi : BitVec k} {lo : BitVec (8 * n)} (j : ℕ) :
    bytesOf (n + j) (hi ++ lo) = bytesOf n lo ++ bytesOf j hi := by
  rw [bytesOf, List.range_add, List.map_append, List.map_map]
  refine congrArg₂ (· ++ ·) (List.map_congr_left fun i hi => ?_) (List.map_congr_left fun i _ => ?_)
  · have hlt := List.mem_range.1 hi
    exact BitVec.extractLsb'_append_eq_of_add_le (by omega)
  · rw [Function.comp_apply, BitVec.extractLsb'_append_eq_of_le (by omega), Nat.mul_add,
      Nat.add_sub_cancel_left]

end Bytes

end AntTracer
