import Mathlib.Tactic

/-!
# Reflected CRCs

A register of `w` bits takes in one data bit at a time: the bit is added to
the lowest one, the register moves down one place, and the polynomial is added
if a one fell out. The definitions below are that, for every width and
polynomial. A shift is linear (`shift_xor`), so the low bits of a register can
be shifted apart from the rest of it (`shifts_split`); a table of the shifts
of all groups of `n` bits then takes in `n` data bits at once (`table_step`).
-/

namespace AntTracer

namespace ReflectedCrc

variable {w : ℕ} (poly : BitVec w)

/-- One place down. -/
def shift (c : BitVec w) : BitVec w := if c.getLsbD 0 then (c >>> 1) ^^^ poly else c >>> 1

/-- `n` places down. -/
def shifts : ℕ → BitVec w → BitVec w
  | 0, c => c
  | n + 1, c => shifts n (shift poly c)

/-- Take in one data bit. -/
def feedBit (c : BitVec w) (b : Bool) : BitVec w :=
  if c.getLsbD 0 ^^ b then (c >>> 1) ^^^ poly else c >>> 1

/-- Take in data bits, in order. -/
def feed (c : BitVec w) (bs : List Bool) : BitVec w := bs.foldl (feedBit poly) c

/-- The low `n` bits of a vector, the lowest first. -/
def lowBits {k : ℕ} : ℕ → BitVec k → List Bool
  | 0, _ => []
  | n + 1, d => d.getLsbD 0 :: lowBits n (d >>> 1)

variable {poly}

/-- **A shift is linear.** -/
theorem shift_xor (a b : BitVec w) : shift poly (a ^^^ b) = shift poly a ^^^ shift poly b := by
  have hcancel : ∀ x y : BitVec w, x ^^^ poly ^^^ (y ^^^ poly) = x ^^^ y := by
    intro x y
    rw [BitVec.xor_comm y poly, BitVec.xor_assoc, ← BitVec.xor_assoc poly, BitVec.xor_self,
      BitVec.zero_xor]
  unfold shift
  rw [BitVec.getLsbD_xor, BitVec.ushiftRight_xor_distrib]
  cases a.getLsbD 0 <;> cases b.getLsbD 0 <;> simp only [Bool.bne_false, Bool.bne_true,
    Bool.not_false, Bool.not_true, if_true, Bool.false_eq_true, if_false]
  · rw [BitVec.xor_assoc]
  · rw [BitVec.xor_assoc, BitVec.xor_assoc, BitVec.xor_comm poly]
  · rw [hcancel]

theorem shifts_xor (n : ℕ) (a b : BitVec w) :
    shifts poly n (a ^^^ b) = shifts poly n a ^^^ shifts poly n b := by
  induction n generalizing a b with
  | zero => rfl
  | succ n ih => rw [shifts, shifts, shifts, shift_xor, ih]

/-- A register whose low bits are clear only moves down. -/
theorem shifts_of_low_clear (n : ℕ) {c : BitVec w} (h : ∀ i < n, c.getLsbD i = false) :
    shifts poly n c = c >>> n := by
  induction n generalizing c with
  | zero => exact (BitVec.ushiftRight_zero c).symm
  | succ n ih =>
    have hshift : shift poly c = c >>> 1 := by
      rw [shift, h 0 n.succ_pos]
      rfl
    rw [shifts, hshift, ih, ← BitVec.shiftRight_add, Nat.add_comm]
    intro i hi
    rw [BitVec.getLsbD_ushiftRight]
    exact h (1 + i) (by omega)

/-- The low bits of a register are shifted apart from the rest of it. -/
theorem shifts_split (n : ℕ) (hn : n ≤ w) (c : BitVec w) :
    shifts poly n c = (c >>> n) ^^^ shifts poly n ((c.setWidth n).setWidth w) := by
  have hsplit : c = (c ^^^ (c.setWidth n).setWidth w) ^^^ (c.setWidth n).setWidth w := by
    rw [BitVec.xor_assoc, BitVec.xor_self, BitVec.xor_zero]
  have hclear : ∀ i < n, (c ^^^ (c.setWidth n).setWidth w).getLsbD i = false := by
    intro i hi
    simp [hi, show i < w by omega]
  have hlow : ((c.setWidth n).setWidth w) >>> n = 0#w := by
    ext i hi
    simp [BitVec.getLsbD_setWidth]
  conv_lhs => rw [hsplit, shifts_xor, shifts_of_low_clear n hclear,
    BitVec.ushiftRight_xor_distrib, hlow, BitVec.xor_zero]

/-- A data bit is added to the lowest bit of the register before it moves. -/
theorem feedBit_eq (c d : BitVec w) :
    shift poly (c ^^^ d) = feedBit poly c (d.getLsbD 0) ^^^ (d >>> 1) := by
  rw [shift, feedBit, BitVec.getLsbD_xor, BitVec.ushiftRight_xor_distrib]
  split
  · rw [BitVec.xor_assoc, BitVec.xor_assoc, BitVec.xor_comm poly]
  · rfl

/-- Bits taken in one at a time are bits added at once and shifted out. -/
theorem feed_lowBits (n : ℕ) (c : BitVec w) {d : BitVec w} (h : ∀ i ≥ n, d.getLsbD i = false) :
    feed poly c (lowBits n d) = shifts poly n (c ^^^ d) := by
  induction n generalizing c d with
  | zero =>
    have hd : d = 0#w := by
      ext i hi
      rw [← BitVec.getLsbD_eq_getElem, h i (Nat.zero_le i), BitVec.getElem_zero]
    rw [hd, BitVec.xor_zero]
    rfl
  | succ n ih =>
    rw [shifts, feedBit_eq, ← ih]
    · rfl
    · intro i hi
      rw [BitVec.getLsbD_ushiftRight]
      exact h (1 + i) (by omega)

theorem lowBits_setWidth {k : ℕ} (n : ℕ) (hk : k ≤ w) (d : BitVec k) :
    lowBits n (d.setWidth w) = lowBits n d := by
  induction n generalizing d with
  | zero => rfl
  | succ n ih =>
    have hbit : (d.setWidth w).getLsbD 0 = d.getLsbD 0 := by
      rw [BitVec.getLsbD_setWidth]
      rcases Nat.eq_zero_or_pos w with hw | hw
      · have : k = 0 := by omega
        subst this
        simp
      · simp [hw]
    have hshift : (d.setWidth w) >>> 1 = (d >>> 1).setWidth w := by
      ext i hi
      simp only [BitVec.getElem_ushiftRight, BitVec.getElem_setWidth, BitVec.getLsbD_setWidth,
        BitVec.getLsbD_ushiftRight]
      by_cases h : 1 + i < w
      · simp [h]
      · simp [h, BitVec.getLsbD_of_ge d (1 + i) (by omega)]
    rw [lowBits, lowBits, hbit, hshift, ih]

/-- **The table step.** With a table of the shifts of every group of `n` bits,
one lookup takes in `n` data bits. -/
theorem table_step {n : ℕ} (hn : n ≤ w) {table : BitVec n → BitVec w}
    (htable : ∀ i, table i = shifts poly n (i.setWidth w)) (c : BitVec w) (d : BitVec n) :
    (c >>> n) ^^^ table ((c ^^^ d.setWidth w).setWidth n) = feed poly c (lowBits n d) := by
  have hhigh : ∀ i ≥ n, (d.setWidth w).getLsbD i = false := by
    intro i hi
    rw [BitVec.getLsbD_setWidth, BitVec.getLsbD_of_ge d i hi, Bool.and_false]
  have hshift : (d.setWidth w) >>> n = 0#w := by
    ext i hi
    rw [BitVec.getElem_ushiftRight, hhigh (n + i) (by omega), BitVec.getElem_zero]
  rw [← lowBits_setWidth n hn, feed_lowBits n c hhigh, shifts_split n hn, htable,
    BitVec.ushiftRight_xor_distrib, hshift, BitVec.xor_zero]

theorem feed_append (c : BitVec w) (bs bs' : List Bool) :
    feed poly c (bs ++ bs') = feed poly (feed poly c bs) bs' := List.foldl_append

/-- **A whole run of table steps.** -/
theorem foldl_table {n : ℕ} (hn : n ≤ w) {table : BitVec n → BitVec w}
    (htable : ∀ i, table i = shifts poly n (i.setWidth w)) (c : BitVec w)
    (data : List (BitVec n)) :
    data.foldl (fun (c : BitVec w) d => (c >>> n) ^^^ table ((c ^^^ d.setWidth w).setWidth n)) c =
      feed poly c (data.flatMap (lowBits n)) := by
  induction data generalizing c with
  | nil => rfl
  | cons d data ih =>
    rw [List.foldl_cons, ih, table_step hn htable, List.flatMap_cons, feed_append]

end ReflectedCrc

end AntTracer
