import AntTracer.Library.Stores

/-!
# Circular buffers

The cells of a memory of `N` cells, from a first one on and around its end,
as a list. Taking the first cell drops the head of the list; a list stored
from the cell after the last on, split in two where the end of the memory
comes in between, is appended to it (`contents_fill`).
-/

namespace AntTracer

namespace Circular

open Stores

variable {α : Type*} {N : ℕ} {d d' : ℕ → α} {first count w : ℕ} {l : List α}

/-- What a circular buffer holds. -/
def contents (N : ℕ) (d : ℕ → α) (first count : ℕ) : List α :=
  (List.range count).map fun i => d ((first + i) % N)

/-- The memory after a list is stored from `w` on, in two pieces if it does
not fit before the end. -/
def fill (N : ℕ) (d : ℕ → α) (w : ℕ) (l : List α) : ℕ → α :=
  place (place d w (l.take (N - w))) 0 (l.drop (N - w))

@[simp] theorem contents_length : (contents N d first count).length = count := by
  rw [contents, List.length_map, List.length_range]

@[simp] theorem contents_zero : contents N d first 0 = [] := rfl

theorem contents_mod : contents N d (first % N) count = contents N d first count := by
  simp only [contents, Nat.mod_add_mod]

theorem contents_add (a b : ℕ) :
    contents N d first (a + b) = contents N d first a ++ contents N d (first + a) b := by
  simp only [contents, List.range_add, List.map_append, List.map_map, Nat.add_assoc,
    Function.comp_def]

/-- The first cell, and the rest. -/
theorem contents_succ :
    contents N d first (count + 1) = d (first % N) :: contents N d (first + 1) count := by
  rw [Nat.add_comm, contents_add]
  rfl

theorem contents_congr (h : ∀ i < count, d ((first + i) % N) = d' ((first + i) % N)) :
    contents N d first count = contents N d' first count :=
  List.map_congr_left fun i hi => h i (List.mem_range.1 hi)

/-- Cells less than a lap apart are different. -/
theorem cell_ne {a i j : ℕ} (hij : i < j) (hj : j < i + N) : (a + i) % N ≠ (a + j) % N := by
  intro h
  have hdvd := (Nat.modEq_iff_dvd' (by omega)).1 h
  have hle := Nat.le_of_dvd (by omega) hdvd
  omega

/-- The cell of an index at most a lap past the end. -/
theorem mod_eq {a : ℕ} (h : a < N + N) : a % N = if a < N then a else a - N := by
  split
  · exact Nat.mod_eq_of_lt ‹_›
  · rw [Nat.mod_eq_sub_mod (by omega), Nat.mod_eq_of_lt (by omega)]

/-- What is stored goes to the cells from `w` on. -/
theorem fill_cell (hw : w ≤ N) (hl : l.length ≤ N) {i : ℕ} (hi : i < l.length) :
    fill N d w l ((w + i) % N) = l[i] := by
  have htake : (l.take (N - w)).length = min (N - w) l.length := List.length_take
  have hdrop : (l.drop (N - w)).length = l.length - (N - w) := List.length_drop
  rw [mod_eq (by omega), fill]
  split
  · -- before the end
    rw [place_of_ge (by omega), place_add (by omega), List.getElem_take]
  · obtain ⟨k, hk⟩ : ∃ k, w + i - N = 0 + k := ⟨w + i - N, by omega⟩
    rw [hk, place_add (by omega), List.getElem_drop]
    congr 1
    omega

/-- The two pieces of a stretch of another memory. -/
theorem fill_block {m : ℕ → α} {k : ℕ} : fill N d w (block m 0 k) =
    place (place d w (block m 0 (min (N - w) k))) 0
      (block m (min (N - w) k) (k - min (N - w) k)) := by
  rw [fill, block_take, block_drop, Nat.zero_add]
  rcases le_total (N - w) k with hle | hle
  · rw [min_eq_left hle]
  · rw [min_eq_right hle, Nat.sub_self, Nat.sub_eq_zero_of_le hle]
    rfl

/-- No other cell changes. -/
theorem fill_of_ne (hw : w ≤ N) {k : ℕ} (hk : k < N)
    (h : ∀ i < l.length, (w + i) % N ≠ k) : fill N d w l k = d k := by
  have htake : (l.take (N - w)).length = min (N - w) l.length := List.length_take
  have hdrop : (l.drop (N - w)).length = l.length - (N - w) := List.length_drop
  -- a cell the second piece or the first one reaches is one of those from `w` on
  have hfront : ¬ k < (l.drop (N - w)).length := by
    intro hlt
    refine h (k + N - w) (by omega) ?_
    rw [show w + (k + N - w) = k + N by omega, Nat.add_mod_right, Nat.mod_eq_of_lt hk]
  have hback : ¬ (w ≤ k ∧ k < w + (l.take (N - w)).length) := by
    rintro ⟨hle, hlt⟩
    refine h (k - w) (by omega) ?_
    rw [show w + (k - w) = k by omega, Nat.mod_eq_of_lt hk]
  rw [fill, place_of_ge (by omega)]
  by_cases hkw : k < w
  · exact place_of_lt hkw
  · exact place_of_ge (by omega)

/-- **What is stored behind the last cell is appended**, if there is room. -/
theorem contents_fill (hw : w ≤ N) (hfirst : w % N = (first + count) % N)
    (hroom : count + l.length ≤ N) :
    contents N (fill N d w l) first (count + l.length) = contents N d first count ++ l := by
  have hcell : ∀ i, (first + count + i) % N = (w + i) % N := by
    intro i
    rw [Nat.add_mod, ← hfirst, ← Nat.add_mod]
  rw [contents_add]
  congr 1
  · refine contents_congr fun i hi => ?_
    have hpos : 0 < N := by omega
    refine fill_of_ne hw (Nat.mod_lt _ hpos) fun j hj => ?_
    rw [← hcell, Nat.add_assoc]
    exact (cell_ne (by omega) (by omega)).symm
  · refine List.ext_getElem contents_length fun i h₁ h₂ => ?_
    rw [contents_length] at h₁
    simp only [contents, List.getElem_map, List.getElem_range, hcell]
    exact fill_cell hw (by omega) h₁

/-- What is stored is there. -/
theorem contents_fill_self (hw : w ≤ N) (hroom : l.length ≤ N) :
    contents N (fill N d w l) w l.length = l := by
  have hfill : contents N (fill N d w l) w (0 + l.length) = contents N d w 0 ++ l :=
    contents_fill hw rfl (by omega)
  rwa [contents_zero, Nat.zero_add, List.nil_append] at hfill

/-! ## Distances -/

/-- How far it is from one cell on to another. -/
def gap (N a b : ℕ) : ℕ := if a ≤ b then b - a else b + N - a

theorem gap_self {a : ℕ} : gap N a a = 0 := by rw [gap, if_pos le_rfl, Nat.sub_self]

theorem add_gap {a b : ℕ} (ha : a < N) (hb : b < N) : (a + gap N a b) % N = b := by
  rw [gap]
  split
  · rw [Nat.add_sub_cancel' ‹_›, Nat.mod_eq_of_lt hb]
  · rw [show a + (b + N - a) = b + N by omega, Nat.add_mod_right, Nat.mod_eq_of_lt hb]

theorem gap_lt {a b : ℕ} (ha : a < N) (hb : b < N) : gap N a b < N := by
  rw [gap]
  split <;> omega

/-- The way to a cell leads over those before it. -/
theorem gap_add_gap {a b c : ℕ} (ha : a < N) (hb : b < N) (hc : c < N) (h : gap N a b ≤ gap N a c) :
    gap N a b + gap N b c = gap N a c := by
  simp only [gap] at h ⊢
  split_ifs at h ⊢ <;> omega

/-- Going on, less than a lap in all. -/
theorem gap_add_mod {a b n : ℕ} (ha : a < N) (hb : b < N) (h : gap N a b + n < N) :
    gap N a ((b + n) % N) = gap N a b + n := by
  rw [mod_eq (by omega)]
  simp only [gap] at h ⊢
  split_ifs at h ⊢ <;> omega

theorem eq_of_gap_eq {a b c : ℕ} (ha : a < N) (hb : b < N) (hc : c < N)
    (h : gap N a b = gap N a c) : b = c := by
  rw [← add_gap ha hb, h, add_gap ha hc]

/-- Short of a full lap. -/
theorem gap_succ_lt {a b : ℕ} (ha : a < N) (hb : b < N) (h : (b + 1) % N ≠ a) :
    gap N a b + 1 < N := by
  rw [mod_eq (by omega)] at h
  simp only [gap]
  split_ifs at h ⊢ <;> omega

/-- One more cell is stored. -/
theorem contents_update (v : α) (hfirst : (first + count) % N = w)
    (hroom : count < N) :
    contents N (Function.update d w v) first (count + 1) = contents N d first count ++ [v] := by
  rw [contents_add]
  congr 1
  · refine contents_congr fun i hi => Function.update_of_ne ?_ _ _
    rw [← hfirst]
    exact cell_ne hi (by omega)
  · simp only [contents, List.range_one, List.map_cons, List.map_nil, Nat.add_zero, hfirst,
      Function.update_self]

/-- What is stored in one piece is there. -/
theorem contents_place (h : w + l.length ≤ N) : contents N (place d w l) w l.length = l := by
  refine List.ext_getElem contents_length fun i h₁ h₂ => ?_
  simp only [contents, List.getElem_map, List.getElem_range]
  rw [Nat.mod_eq_of_lt (by omega), place_add h₂]

end Circular

end AntTracer
