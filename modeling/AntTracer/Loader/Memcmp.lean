import AntTracer.Loader.Idempotent

/-!
# `memcmp`

The loop of `memcmp` counts with `i`, which it never increments: a length
other than zero is no bound. Both pointers go on until two bytes differ. The
application has the same function in its library. `memcmp_exact_iff` says where
that does no harm: where a difference comes before the end of the buffers, or
there is nothing to compare.
-/

namespace AntTracer

namespace Libc

/-- `memcmp` of the application, on what memory holds from the two pointers
on. -/
def memcmp (l r : List Byte) (len : ℕ) : Option ℤ := Loader.memcmpFrom len 0 l r

end Libc

namespace Loader

variable {l r : List Byte} {len : ℕ}

/-- The call returns, reads no more than the buffers, and tells whether they
are equal and which byte is less where they are not. -/
def Compares (cmp : List Byte → List Byte → ℕ → Option ℤ) (l r : List Byte) (len : ℕ) : Prop :=
  ∃ v, cmp l r len = some v ∧ cmp (l.take len) (r.take len) len = some v ∧
    (v = 0 ↔ l.take len = r.take len) ∧
    ∀ pre x y l' r', l.take len = pre ++ x :: l' → r.take len = pre ++ y :: r' →
      (x < y → v < 0) ∧ (y < x → 0 < v)

/-- Lists of one length that are not the same have a first difference. -/
theorem exists_first_difference {α : Type*} (a : List α) : ∀ b : List α,
    a.length = b.length → a ≠ b →
    ∃ pre x y a' b', a = pre ++ x :: a' ∧ b = pre ++ y :: b' ∧ x ≠ y := by
  induction a with
  | nil =>
    intro b hlen hne
    exact absurd (List.length_eq_zero_iff.1 hlen.symm).symm hne
  | cons x a ih =>
    intro b hlen hne
    cases b with
    | nil => cases hlen
    | cons y b =>
      by_cases hxy : x = y
      · subst hxy
        obtain ⟨pre, x', y', a', b', rfl, rfl, hdiff⟩ :=
          ih b (Nat.succ.inj hlen) fun h => hne (congrArg _ h)
        exact ⟨x :: pre, x', y', a', b', rfl, rfl, hdiff⟩
      · exact ⟨[], x, y, a, b, rfl, rfl, hxy⟩

/-- **The loop stops at the first difference.** -/
theorem memcmp_first_difference (hlen : 0 < len) (pre l r : List Byte) {x y : Byte} (hne : x ≠ y) :
    memcmp (pre ++ x :: l) (pre ++ y :: r) len = some (if x < y then -1 else 1) := by
  induction pre with
  | nil =>
    rw [List.nil_append, List.nil_append, memcmp, memcmpFrom, if_pos hlen]
    by_cases hlt : x < y
    · rw [if_pos hlt, if_pos hlt]
    · have hgt : x > y := BitVec.lt_of_le_ne (BitVec.not_lt.1 hlt) hne.symm
      rw [if_neg hlt, if_neg hlt, if_pos hgt]
  | cons z pre ih =>
    rw [List.cons_append, List.cons_append, memcmp, memcmpFrom, if_pos hlen,
      if_neg (BitVec.lt_irrefl z), if_neg (BitVec.lt_irrefl z)]
    exact ih

theorem memcmp_zero (l r : List Byte) : memcmp l r 0 = some 0 := by
  cases l with
  | nil => rfl
  | cons x l =>
    cases r with
    | nil => rfl
    | cons y r => rfl

/-- Buffers that differ are compared. -/
theorem compares_of_ne (hlen : 0 < len) (hl : len ≤ l.length) (hr : len ≤ r.length)
    (hne : l.take len ≠ r.take len) : Compares memcmp l r len := by
  have hlength : (l.take len).length = (r.take len).length := by
    rw [List.length_take, List.length_take, min_eq_left hl, min_eq_left hr]
  obtain ⟨pre, x, y, l', r', hltake, hrtake, hxy⟩ := exists_first_difference _ _ hlength hne
  have hshort : memcmp (l.take len) (r.take len) len = some (if x < y then -1 else 1) := by
    rw [hltake, hrtake, memcmp_first_difference hlen pre l' r' hxy]
  refine ⟨if x < y then -1 else 1, ?_, hshort, ?_, ?_⟩
  · rw [← List.take_append_drop len l, ← List.take_append_drop len r, hltake, hrtake,
      List.append_assoc, List.append_assoc, List.cons_append, List.cons_append,
      memcmp_first_difference hlen pre _ _ hxy]
  · refine iff_of_false ?_ hne
    split <;> decide
  · intro pre' x' y' l'' r'' hl' hr'
    have hsame : ∀ hne' : x' ≠ y',
        some (if x < y then -1 else 1) = some (if x' < y' then (-1 : ℤ) else 1) := by
      intro hne'
      rw [← hshort, hl', hr', memcmp_first_difference hlen pre' l'' r'' hne']
    constructor
    · intro hlt
      rw [Option.some.inj (hsame (BitVec.ne_of_lt hlt)), if_pos hlt]
      decide
    · intro hlt
      rw [Option.some.inj (hsame (BitVec.ne_of_lt hlt).symm), if_neg (BitVec.lt_asymm hlt)]
      decide

/-- **`memcmp` compares its buffers where they differ**, or are empty. That of
the application does the same. -/
theorem memcmp_exact_iff (hl : len ≤ l.length) (hr : len ≤ r.length) :
    (Compares memcmp l r len ↔ len = 0 ∨ l.take len ≠ r.take len) ∧
      (Compares Libc.memcmp l r len ↔ len = 0 ∨ l.take len ≠ r.take len) := by
  have hboth : Compares memcmp l r len ↔ len = 0 ∨ l.take len ≠ r.take len := by
    rcases Nat.eq_zero_or_pos len with rfl | hlen
    · refine iff_of_true ⟨0, memcmp_zero l r, memcmp_zero _ _, iff_of_true rfl rfl, ?_⟩ (.inl rfl)
      intro pre x y l' r' hnil
      simp at hnil
    · constructor
      · rintro ⟨v, hv, -, hzero, -⟩
        refine Or.inr fun heq => memcmp_ne_zero hlen l r ?_
        rw [hv, hzero.2 heq]
      · rintro (rfl | hne)
        · exact absurd hlen (lt_irrefl 0)
        · exact compares_of_ne hlen hl hr hne
  exact ⟨hboth, hboth⟩

/-- Equal buffers of one byte, with different bytes behind them. -/
theorem memcmp_behind : memcmp [7#8, 1#8] [7#8, 2#8] 1 = some (-1) ∧
    ¬ Compares memcmp [7#8, 1#8] [7#8, 2#8] 1 := by
  have hv : memcmp [7#8, 1#8] [7#8, 2#8] 1 = some (-1) := rfl
  refine ⟨hv, ?_⟩
  rintro ⟨v, hv', -, hzero, -⟩
  rw [hv] at hv'
  rw [← Option.some.inj hv'] at hzero
  exact absurd (hzero.2 rfl) (by decide)

/-- Two bytes that differ, and nothing to say of what lies behind them. -/
theorem memcmp_two :
    (Compares memcmp [7#8, 1#8, 5#8] [7#8, 2#8, 4#8] 2 ↔
      2 = 0 ∨ [7#8, 1#8] ≠ [7#8, 2#8]) ∧
    (Compares Libc.memcmp [7#8, 1#8, 5#8] [7#8, 2#8, 4#8] 2 ↔
      2 = 0 ∨ [7#8, 1#8] ≠ [7#8, 2#8]) :=
  memcmp_exact_iff (l := [7#8, 1#8, 5#8]) (r := [7#8, 2#8, 4#8]) (by decide) (by decide)

end Loader

end AntTracer
