import Mathlib.Data.List.Basic
import Mathlib.Order.Lattice

/-!
# The newest of a list

Going through a list, keep an element if it passes a test and its key is
greater than that of the one kept before. What is kept in the end has the
greatest key, and is the only element that has it if there is only one
(`foldl_keep_eq`).
-/

namespace AntTracer

namespace Newest

variable {α κ : Type*} [LinearOrder κ] (key : α → κ) (ok : α → Prop) [DecidablePred ok]

/-- The newer one, if it passes the test. -/
def keep (c x : α) : α := if key c < key x ∧ ok x then x else c

variable {key ok} {c x m : α} {xs : List α}

theorem key_le_keep : key c ≤ key (keep key ok c x) := by
  unfold keep
  split
  · rename_i h
    exact h.1.le
  · exact le_rfl

theorem key_le_keep_of_ok (h : ok x) : key x ≤ key (keep key ok c x) := by
  unfold keep
  split
  · exact le_rfl
  · rename_i hn
    exact not_lt.1 fun hlt => hn ⟨hlt, h⟩

theorem key_le_foldl_keep : ∀ {c : α}, key c ≤ key (xs.foldl (keep key ok) c) := by
  induction xs with
  | nil => exact le_rfl
  | cons x xs ih => exact key_le_keep.trans ih

/-- What passes the test is not newer than what is kept. -/
theorem key_le_foldl_keep_of_mem (hx : x ∈ xs) (h : ok x) :
    ∀ {c : α}, key x ≤ key (xs.foldl (keep key ok) c) := by
  induction xs with
  | nil => cases hx
  | cons y ys ih =>
    rcases List.mem_cons.1 hx with rfl | hx
    · exact (key_le_keep_of_ok h).trans key_le_foldl_keep
    · exact ih hx

/-- What is kept was there, and passes the test. -/
theorem foldl_keep_mem : ∀ {c : α},
    xs.foldl (keep key ok) c = c ∨ xs.foldl (keep key ok) c ∈ xs ∧
      ok (xs.foldl (keep key ok) c) := by
  induction xs with
  | nil => exact Or.inl rfl
  | cons x xs ih =>
    intro c
    rw [List.foldl_cons]
    rcases ih (c := keep key ok c x) with h | ⟨h, hok⟩
    · rw [h]
      unfold keep
      split
      · rename_i hx
        exact Or.inr ⟨List.mem_cons_self .., hx.2⟩
      · exact Or.inl rfl
    · exact Or.inr ⟨List.mem_cons_of_mem _ h, hok⟩

/-- **The newest is kept**, if all others are older. -/
theorem foldl_keep_eq (hm : c = m ∨ m ∈ xs ∧ ok m) (hc : c = m ∨ key c < key m)
    (hall : ∀ x ∈ xs, ok x → x = m ∨ key x < key m) : xs.foldl (keep key ok) c = m := by
  have hle : key m ≤ key (xs.foldl (keep key ok) c) := by
    rcases hm with rfl | ⟨hm, hok⟩
    · exact key_le_foldl_keep
    · exact key_le_foldl_keep_of_mem hm hok
  have hlt : xs.foldl (keep key ok) c = m ∨ key (xs.foldl (keep key ok) c) < key m := by
    rcases @foldl_keep_mem _ _ _ key ok _ xs c with h | ⟨h, hok⟩
    · rw [h]
      exact hc
    · exact hall _ h hok
  exact hlt.resolve_right (not_lt.2 hle)

end Newest

end AntTracer
