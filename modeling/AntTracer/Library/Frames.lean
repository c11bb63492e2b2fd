import Mathlib.Tactic

/-!
# Self-delimiting frames

A stream of words in which one bit of each word says whether it starts a
frame. A reader holds the frame it is collecting (`none` when it has none)
and hands it on when the next frame starts or a blank word ends it. Nothing
here names a program: the word type, the start test, the blank word and the
capacity of the collecting buffer are parameters.
-/

namespace AntTracer

namespace Frames

variable {α : Type*} (start : α → Prop) [DecidablePred start] [DecidableEq α] (blank : α) (cap : ℕ)

/-- What the reader holds after a word. -/
def hold (p : Option (List α)) (w : α) : Option (List α) :=
  if start w then
    if w = blank then none else some [w]
  else p.map fun l => if l.length < cap then l ++ [w] else l

/-- What it hands on at a word. -/
def handOn (p : Option (List α)) (w : α) : List (List α) :=
  if start w then p.toList else []

/-- What the reader holds after a stream. -/
def pend (p : Option (List α)) (ws : List α) : Option (List α) :=
  ws.foldl (hold start blank cap) p

/-- The frames handed on over a stream. -/
def frames : Option (List α) → List α → List (List α)
  | _, [] => []
  | p, w :: ws => handOn start p w ++ frames (hold start blank cap p w) ws

/-- A frame as a writer produces it: a start word that is not blank, then
continuation words, no longer than the buffer. -/
structure IsFrame (f : List α) : Prop where
  /-- there is a first word -/
  ne_nil : f ≠ []
  /-- which starts a frame -/
  start_head : start (f.head ne_nil)
  /-- and is not the blank word -/
  head_ne : f.head ne_nil ≠ blank
  /-- no other word starts one -/
  cont_tail : ∀ w ∈ f.tail, ¬ start w
  /-- the frame fits the buffer -/
  length_le : f.length ≤ cap

variable {start blank cap}

omit [DecidablePred start] [DecidableEq α] in
/-- The beginning of a frame is one. -/
theorem IsFrame.take {f : List α} (h : IsFrame start blank cap f) {k : ℕ} (hk : 0 < k) :
    IsFrame start blank cap (f.take k) := by
  obtain ⟨hne, hs, hh, ht, hl⟩ := h
  cases f with
  | nil => exact absurd rfl hne
  | cons w ws =>
    obtain ⟨k, rfl⟩ : ∃ j, k = j + 1 := ⟨k - 1, by omega⟩
    exact ⟨List.cons_ne_nil _ _, hs, hh, fun v hv => ht v (List.mem_of_mem_take hv),
      (List.length_take_le' (k + 1) (w :: ws)).trans hl⟩

@[simp] theorem pend_nil (p : Option (List α)) : pend start blank cap p [] = p := rfl

@[simp] theorem frames_nil (p : Option (List α)) : frames start blank cap p [] = [] := rfl

theorem pend_cons (p : Option (List α)) (w : α) (ws : List α) :
    pend start blank cap p (w :: ws) = pend start blank cap (hold start blank cap p w) ws := rfl

theorem pend_append (p : Option (List α)) (xs ys : List α) :
    pend start blank cap p (xs ++ ys) = pend start blank cap (pend start blank cap p xs) ys :=
  List.foldl_append

/-- Reading goes on from what is held. -/
theorem frames_append (xs ys : List α) : ∀ p : Option (List α),
    frames start blank cap p (xs ++ ys) =
      frames start blank cap p xs ++ frames start blank cap (pend start blank cap p xs) ys := by
  induction xs with
  | nil => intro p; rfl
  | cons x xs ih =>
    intro p
    rw [List.cons_append, frames, frames, ih, List.append_assoc, pend_cons]

/-- Continuation words with nothing held are dropped. -/
theorem pend_none_of_cont {ws : List α} (h : ∀ w ∈ ws, ¬ start w) :
    pend start blank cap none ws = none := by
  induction ws with
  | nil => rfl
  | cons w ws ih =>
    rw [pend_cons, hold, if_neg (h w (List.mem_cons_self ..))]
    exact ih fun v hv => h v (List.mem_cons_of_mem _ hv)

/-- Continuation words hand nothing on. -/
theorem frames_of_cont {ws : List α} (h : ∀ w ∈ ws, ¬ start w) : ∀ p : Option (List α),
    frames start blank cap p ws = [] := by
  induction ws with
  | nil => intro p; rfl
  | cons w ws ih =>
    intro p
    rw [frames, handOn, if_neg (h w (List.mem_cons_self ..)),
      ih fun v hv => h v (List.mem_cons_of_mem _ hv)]
    rfl

/-- Continuation words extend what is held. -/
theorem pend_some_of_cont {ws : List α} (h : ∀ w ∈ ws, ¬ start w) : ∀ l : List α,
    l.length + ws.length ≤ cap → pend start blank cap (some l) ws = some (l ++ ws) := by
  induction ws with
  | nil => intro l _; simp
  | cons w ws ih =>
    intro l hl
    simp only [List.length_cons] at hl
    rw [pend_cons, hold, if_neg (h w (List.mem_cons_self ..)), Option.map_some,
      if_pos (by omega), ih (fun v hv => h v (List.mem_cons_of_mem _ hv)) _ (by simp; omega)]
    simp

/-- A blank word ends what is held. -/
theorem hold_blank (hb : start blank) (p : Option (List α)) :
    hold start blank cap p blank = none := by
  simp [hold, hb]

theorem frames_blank (hb : start blank) (p : Option (List α)) :
    frames start blank cap p [blank] = p.toList := by
  simp [frames, handOn, hb]

/-- **A frame goes in whole**: it hands on what was held, and is then held
itself. -/
theorem frames_frame {f : List α} (hf : IsFrame start blank cap f) (p : Option (List α)) :
    frames start blank cap p f = p.toList ∧ pend start blank cap p f = some f := by
  obtain ⟨hne, hs, hh, ht, hl⟩ := hf
  cases f with
  | nil => exact absurd rfl hne
  | cons w ws =>
    simp only [List.head_cons, List.tail_cons] at hs hh ht
    simp only [List.length_cons] at hl
    have hw : hold start blank cap p w = some [w] := by simp [hold, hs, hh]
    refine ⟨?_, ?_⟩
    · rw [frames, frames_of_cont ht, handOn, if_pos hs, List.append_nil]
    · rw [pend_cons, hw, pend_some_of_cont ht [w] (by simp; omega)]
      rfl

/-- **A stream of frames** hands on every frame but the last, which it
holds. -/
theorem frames_flatten {fs : List (List α)} (h : ∀ f ∈ fs, IsFrame start blank cap f) :
    ∀ p : Option (List α),
      frames start blank cap p fs.flatten ++ (pend start blank cap p fs.flatten).toList =
        p.toList ++ fs := by
  induction fs with
  | nil => intro p; simp
  | cons f fs ih =>
    intro p
    obtain ⟨h₁, h₂⟩ := frames_frame (h f (List.mem_cons_self ..)) p
    rw [List.flatten_cons, frames_append, pend_append, h₁, h₂, List.append_assoc,
      ih fun g hg => h g (List.mem_cons_of_mem _ hg)]
    simp

/-- A stream of frames and a blank word hand on every frame. -/
theorem frames_flatten_blank (hb : start blank) {fs : List (List α)}
    (h : ∀ f ∈ fs, IsFrame start blank cap f) :
    frames start blank cap none (fs.flatten ++ [blank]) = fs := by
  rw [frames_append, frames_blank hb, frames_flatten h]
  rfl

end Frames

end AntTracer
