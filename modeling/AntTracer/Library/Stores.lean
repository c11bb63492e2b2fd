import Mathlib.Data.List.GetD
import Mathlib.Tactic

/-!
# Stores and the memory after them

Code that writes through a pointer is given here by the stores it makes, in
order, each with its address. What memory holds after them is a fold
(`after`). Where the stores fill a stretch with a list, the memory after them
is the one before with the list placed there (`place`); two stretches side by
side are one (`place_append`), and a stretch that reaches over the end of the
one before it takes its place from there on (`place_over`).
-/

namespace AntTracer

namespace Stores

variable {α : Type*}

/-- The memory after stores. -/
def after (m : ℕ → α) (ss : List (ℕ × α)) : ℕ → α :=
  ss.foldl (fun m s => Function.update m s.1 s.2) m

/-- The memory with a list placed at an address. -/
def place (m : ℕ → α) (a : ℕ) (l : List α) : ℕ → α :=
  fun i => if a ≤ i then l.getD (i - a) (m i) else m i

/-- The stores that fill a stretch, in order. -/
def stretch (a : ℕ) : List α → List (ℕ × α)
  | [] => []
  | v :: l => (a, v) :: stretch (a + 1) l

/-- What memory holds at the `n` addresses from `a` on. -/
def block (m : ℕ → α) (a n : ℕ) : List α := (List.range n).map fun i => m (a + i)

variable {m : ℕ → α} {a i k n : ℕ} {l l' : List α}

@[simp] theorem after_nil : after m [] = m := rfl

@[simp] theorem after_cons (s : ℕ × α) (ss : List (ℕ × α)) :
    after m (s :: ss) = after (Function.update m s.1 s.2) ss := rfl

@[simp] theorem after_append (ss ss' : List (ℕ × α)) :
    after m (ss ++ ss') = after (after m ss) ss' := List.foldl_append

/-! ## Lists in memory -/

@[simp] theorem place_nil : place m a [] = m := by
  funext i
  rw [place, List.getD_nil, ite_self]

theorem place_of_lt (h : i < a) : place m a l i = m i := if_neg (by omega)

theorem place_of_ge (h : a + l.length ≤ i) : place m a l i = m i := by
  rw [place, if_pos (by omega), List.getD_eq_default _ _ (by omega)]

theorem place_add (h : i < l.length) : place m a l (a + i) = l[i] := by
  rw [place, if_pos (by omega), Nat.add_sub_cancel_left, List.getD_eq_getElem _ _ h]

theorem place_zero (h : i < l.length) : place m 0 l i = l[i] := by
  have hadd := place_add (m := m) (a := 0) h
  rwa [Nat.zero_add] at hadd

/-- One store places one value. -/
theorem update_eq_place (v : α) : Function.update m a v = place m a [v] := by
  funext i
  rcases lt_trichotomy i a with h | rfl | h
  · rw [place_of_lt h, Function.update_of_ne (by omega)]
  · rw [Function.update_self]
    exact (place_add (l := [v]) (i := 0) Nat.one_pos).symm
  · rw [place_of_ge (by simpa using h), Function.update_of_ne (by omega)]

/-- **Over the end.** A stretch that starts inside another and ends no
earlier takes the place of the rest of it. -/
theorem place_over (hk : k ≤ l.length) (h : l.length ≤ k + l'.length) :
    place (place m a l) (a + k) l' = place m a (l.take k ++ l') := by
  funext i
  have hlen : (l.take k).length = k := by rw [List.length_take, min_eq_left hk]
  by_cases hia : i < a
  · rw [place_of_lt (by omega), place_of_lt hia, place_of_lt hia]
  obtain ⟨j, rfl⟩ : ∃ j, i = a + j := ⟨i - a, by omega⟩
  rcases lt_or_ge j k with hjk | hjk
  · rw [place_of_lt (by omega), place_add (by omega),
      place_add (by rw [List.length_append]; omega), List.getElem_append_left (by omega),
      List.getElem_take]
  · obtain ⟨d, rfl⟩ : ∃ d, j = k + d := ⟨j - k, by omega⟩
    rcases lt_or_ge d l'.length with hd | hd
    · rw [← Nat.add_assoc, place_add hd, Nat.add_assoc,
        place_add (by rw [List.length_append]; omega), List.getElem_append_right (by omega)]
      simp only [hlen, Nat.add_sub_cancel_left]
    · rw [place_of_ge (by omega), place_of_ge (by omega),
        place_of_ge (by rw [List.length_append]; omega)]

theorem place_append (m : ℕ → α) (a : ℕ) (l l' : List α) :
    place (place m a l) (a + l.length) l' = place m a (l ++ l') := by
  rw [place_over le_rfl (Nat.le_add_right ..), List.take_length]

/-- A list behind one value. -/
theorem place_update (v : α) : place (Function.update m a v) (a + 1) l = place m a (v :: l) := by
  rw [update_eq_place]
  exact place_append m a [v] l

/-- A stretch can be placed in front of another. -/
theorem place_before : place (place m (a + l.length) l') a l = place m a (l ++ l') := by
  funext i
  by_cases hia : i < a
  · rw [place_of_lt hia, place_of_lt (by omega), place_of_lt hia]
  obtain ⟨j, rfl⟩ : ∃ j, i = a + j := ⟨i - a, by omega⟩
  rcases lt_or_ge j l.length with hj | hj
  · rw [place_add hj, place_add (by rw [List.length_append]; omega),
      List.getElem_append_left hj]
  · obtain ⟨d, rfl⟩ : ∃ d, j = l.length + d := ⟨j - l.length, by omega⟩
    rw [place_of_ge (by omega)]
    rcases lt_or_ge d l'.length with hd | hd
    · rw [← Nat.add_assoc, place_add hd, Nat.add_assoc,
        place_add (by rw [List.length_append]; omega), List.getElem_append_right (by omega)]
      simp only [Nat.add_sub_cancel_left]
    · rw [place_of_ge (by omega), place_of_ge (by rw [List.length_append]; omega)]

theorem stretch_append (l l' : List α) (a : ℕ) :
    stretch a (l ++ l') = stretch a l ++ stretch (a + l.length) l' := by
  induction l generalizing a with
  | nil => rfl
  | cons v l ih =>
    rw [List.cons_append, stretch, ih, stretch, List.cons_append, List.length_cons,
      Nat.add_right_comm, Nat.add_assoc]

theorem after_stretch (l : List α) (m : ℕ → α) (a : ℕ) : after m (stretch a l) = place m a l := by
  induction l generalizing m a with
  | nil => exact place_nil.symm
  | cons v l ih =>
    rw [stretch, after_cons, ih, place_update]

@[simp] theorem block_length : (block m a n).length = n := by
  rw [block, List.length_map, List.length_range]

@[simp] theorem getElem_block (h : i < (block m a n).length) : (block m a n)[i] = m (a + i) := by
  simp [block]

theorem block_succ : block m a (n + 1) = m a :: block m (a + 1) n := by
  rw [block, List.range_succ_eq_map, List.map_cons, List.map_map, Nat.add_zero]
  congr 1
  exact List.map_congr_left fun i _ => congrArg m (by simp only [Nat.succ_eq_add_one]; omega)

theorem block_shift (m : ℕ → α) (a n : ℕ) : block (fun i => m (a + i)) 0 n = block m a n := by
  simp only [block, Nat.zero_add]

theorem block_add (n k : ℕ) : block m a (n + k) = block m a n ++ block m (a + n) k := by
  induction n generalizing a with
  | zero => rw [Nat.zero_add, Nat.add_zero]; rfl
  | succ n ih =>
    rw [show n + 1 + k = n + k + 1 by omega, block_succ, block_succ, ih, List.cons_append,
      show a + 1 + n = a + (n + 1) by omega]

/-- A store just behind a stretch makes it longer. -/
theorem block_update_succ (v : α) :
    block (Function.update m (a + n) v) a (n + 1) = block m a n ++ [v] := by
  have hkeep : block (Function.update m (a + n) v) a n = block m a n :=
    List.map_congr_left fun i hi => by
      have hlt := List.mem_range.1 hi
      rw [Function.update_of_ne (by omega)]
  rw [block_add, hkeep, block_succ, Function.update_self]
  rfl

theorem block_take : (block m a n).take k = block m a (min k n) := by
  refine List.ext_getElem (by simp) fun i h₁ h₂ => ?_
  rw [List.getElem_take, getElem_block, getElem_block]

theorem block_drop : (block m a n).drop k = block m (a + k) (n - k) := by
  refine List.ext_getElem (by simp) fun i h₁ h₂ => ?_
  rw [List.getElem_drop, getElem_block, getElem_block, Nat.add_assoc]

/-- What is placed can be read back. -/
theorem block_place (h : k + n ≤ l.length) : block (place m a l) (a + k) n = (l.drop k).take n := by
  refine List.ext_getElem (by simp; omega) fun i h₁ h₂ => ?_
  rw [block_length] at h₁
  rw [getElem_block, Nat.add_assoc, place_add (by omega), List.getElem_take, List.getElem_drop]

end Stores

end AntTracer
