import Mathlib.Data.List.Basic
import Mathlib.Data.List.TakeWhile
import Mathlib.Logic.Function.Basic

/-!
# Singly linked lists

A list threaded through its elements: a head pointer, and a next pointer in
each element. Code that changes such a list walks it with a pointer to the
pointer that will have to change (`Link`), so that the head is no special
case. `seek_spec` says where the walk stops, and `Chain.unlink` and
`Chain.insert` what an assignment there makes of the list. That the walk stops
at all is what the chain is for: through a cycle `seek` has no value.
-/

namespace AntTracer

/-- A head pointer, and the next pointers of the elements. -/
structure Links (ι : Type*) where
  head : Option ι
  next : ι → Option ι

/-- A place that holds a pointer: the head, or the next pointer of an
element. -/
inductive Link (ι : Type*)
  | head
  | next (i : ι)

namespace Links

variable {ι : Type*} [DecidableEq ι]

/-- `*cpp`. -/
def get (m : Links ι) : Link ι → Option ι
  | .head => m.head
  | .next i => m.next i

/-- `*cpp = v`. -/
def set (m : Links ι) : Link ι → Option ι → Links ι
  | .head, v => { m with head := v }
  | .next i, v => { m with next := Function.update m.next i v }

/-- `while (*cpp) { if (p(*cpp)) break; cpp = &(*cpp)->next; }`. -/
def seek (p : ι → Prop) [DecidablePred p] (m : Links ι) (cpp : Link ι) : Option (Link ι) :=
  match m.get cpp with
  | none => some cpp
  | some cp => if p cp then some cpp else m |>.seek p (.next cp)
partial_fixpoint

/-! ## Segments and chains -/

/-- The pointers lead from `a` through these elements to `b`. -/
def Seg (next : ι → Option ι) : Option ι → List ι → Option ι → Prop
  | a, [], b => a = b
  | a, i :: l, b => a = some i ∧ Seg next (next i) l b

/-- The list from the head to the null pointer. -/
def Chain (m : Links ι) (l : List ι) : Prop := Seg m.next m.head l none

variable {m : Links ι} {next next' : ι → Option ι} {a b c : Option ι} {i : ι} {l pre post : List ι}

omit [DecidableEq ι] in
theorem seg_append :
    Seg next a (pre ++ post) c ↔ ∃ b, Seg next a pre b ∧ Seg next b post c := by
  induction pre generalizing a with
  | nil => simp [Seg]
  | cons i pre ih => simp only [List.cons_append, Seg, ih, exists_and_left, and_assoc]

omit [DecidableEq ι] in
/-- A segment reads the next pointers of its elements alone. -/
theorem Seg.congr (h : Seg next a l b) (hnext : ∀ i ∈ l, next' i = next i) : Seg next' a l b := by
  induction l generalizing a with
  | nil => exact h
  | cons i l ih =>
    refine ⟨h.1, ?_⟩
    rw [hnext i List.mem_cons_self]
    exact ih h.2 fun j hj => hnext j (List.mem_cons_of_mem i hj)

/-- The place that holds the pointer to what comes after these elements. -/
def after (pre : List ι) : Link ι :=
  match pre.getLast? with
  | none => .head
  | some i => .next i

omit [DecidableEq ι] in
@[simp] theorem after_nil : after ([] : List ι) = .head := rfl

omit [DecidableEq ι] in
@[simp] theorem after_snoc : after (pre ++ [i]) = .next i := by simp [after]

omit [DecidableEq ι] in
/-- What is found there. -/
theorem Chain.get_after (pre : List ι) (h : m.Chain (pre ++ post)) :
    m.get (after pre) = post.head? := by
  obtain ⟨b, hpre, hpost⟩ := seg_append.1 h
  have hb : b = post.head? := by
    cases post with
    | nil => exact hpost
    | cons j post => exact hpost.1
  rcases List.eq_nil_or_concat pre with rfl | ⟨pre, i, rfl⟩
  · exact hpre.trans hb
  · rw [List.concat_eq_append] at hpre ⊢
    rw [after_snoc]
    obtain ⟨_, -, -, hlast⟩ := seg_append.1 hpre
    exact hlast.trans hb

/-- **What an assignment does**: the elements before the place are still
there, and the pointer after them is the new one. -/
theorem Chain.set_after (h : m.Chain (pre ++ post)) (hnd : pre.Nodup) (v : Option ι) :
    Seg (m.set (after pre) v).next (m.set (after pre) v).head pre v := by
  obtain ⟨b, hpre, -⟩ := seg_append.1 h
  rcases List.eq_nil_or_concat pre with rfl | ⟨pre, i, rfl⟩
  · rfl
  · rw [List.concat_eq_append] at hpre hnd ⊢
    rw [after_snoc]
    obtain ⟨c, hpre, hlast⟩ := seg_append.1 hpre
    have hi : i ∉ pre := fun hmem =>
      (List.nodup_append.1 hnd).2.2 i hmem i List.mem_cons_self rfl
    refine seg_append.2 ⟨c, hpre.congr fun j hj => ?_, hlast.1, ?_⟩
    · exact Function.update_of_ne (by rintro rfl; exact hi hj) _ _
    · exact Function.update_self i v m.next

/-- Elements that are not at the place keep their next pointers. -/
theorem next_set_after (hi : i ∉ pre) (v : Option ι) :
    (m.set (after pre) v).next i = m.next i := by
  rcases List.eq_nil_or_concat pre with rfl | ⟨pre, j, rfl⟩
  · rfl
  · rw [List.concat_eq_append] at hi ⊢
    rw [after_snoc]
    exact Function.update_of_ne (by rintro rfl; exact hi (by simp)) _ _

/-! ## The operations -/

omit [DecidableEq ι] in
/-- **Where a walk stops**: at the first element with the property, or at the
end. -/
theorem seek_spec (p : ι → Prop) [DecidablePred p] : ∀ post pre : List ι,
    m.Chain (pre ++ post) →
    m.seek p (after pre) = some (after (pre ++ post.takeWhile fun i => ¬ p i)) := by
  intro post
  induction post with
  | nil =>
    intro pre h
    rw [seek, h.get_after]
    simp
  | cons i post ih =>
    intro pre h
    rw [seek, h.get_after]
    simp only [List.head?_cons]
    by_cases hp : p i
    · simp [hp]
    · have hrec := ih (pre ++ [i]) (by simpa using h)
      rw [after_snoc] at hrec
      rw [if_neg hp, hrec]
      simp [hp]

/-- **An element is taken off.** -/
theorem Chain.unlink (pre : List ι) (h : m.Chain (pre ++ i :: post))
    (hnd : (pre ++ i :: post).Nodup) :
    (m.set (after pre) (m.next i)).Chain (pre ++ post) := by
  obtain ⟨b, -, -, hpost⟩ := seg_append.1 h
  obtain ⟨hpre, hrest, hdis⟩ := List.nodup_append.1 hnd
  refine seg_append.2 ⟨m.next i, h.set_after hpre _, hpost.congr fun j hj => ?_⟩
  exact next_set_after (fun hmem => hdis j hmem j (List.mem_cons_of_mem i hj) rfl) _

/-- **An element is put in**: its next pointer is set first, to what the
place held. -/
theorem Chain.insert (h : m.Chain (pre ++ post)) (hnd : (pre ++ post).Nodup)
    (hi : i ∉ pre ++ post) :
    ((m.set (.next i) (m.get (after pre))).set (after pre) (some i)).Chain
      (pre ++ i :: post) := by
  have hget := h.get_after pre
  obtain ⟨b, -, hpost⟩ := seg_append.1 h
  obtain ⟨hpre, -, hdis⟩ := List.nodup_append.1 hnd
  have hi₁ : i ∉ pre := fun hmem => hi (List.mem_append_left post hmem)
  have hi₂ : i ∉ post := fun hmem => hi (List.mem_append_right pre hmem)
  have hb : b = post.head? := by
    cases post with
    | nil => exact hpost
    | cons j post => exact hpost.1
  -- the next pointer of an element that is not on the list is nobody's
  have hset : (m.set (.next i) (m.get (after pre))).Chain (pre ++ post) :=
    h.congr fun j hj => Function.update_of_ne (by rintro rfl; exact hi hj) _ _
  refine seg_append.2 ⟨some i, hset.set_after hpre _, rfl, ?_⟩
  rw [next_set_after hi₁]
  have hnext : (m.set (.next i) (m.get (after pre))).next i = b := by
    rw [hb, ← hget]
    exact Function.update_self i _ m.next
  rw [hnext]
  refine hpost.congr fun j hj => ?_
  rw [next_set_after fun hmem => hdis j hmem j hj rfl]
  exact Function.update_of_ne (by rintro rfl; exact hi₂ hj) _ _

/-- **A sorted list stays sorted** when an element is put in where the walk
stops: before the first element that it has to come before. -/
theorem pairwise_insert {α : Type*} {R : α → α → Prop} {p : α → Prop} [DecidablePred p] {x : α} :
    ∀ {l : List α}, l.Pairwise R → (∀ y ∈ l, ¬ p y → R y x) → (∀ y ∈ l, p y → R x y) →
    (∀ y z, R y z → p y → p z) →
    ((l.takeWhile fun y => ¬ p y) ++ x :: l.dropWhile fun y => ¬ p y).Pairwise R := by
  intro l
  induction l with
  | nil => exact fun _ _ _ _ => List.pairwise_singleton R x
  | cons y l ih =>
    intro hl hpre hpost hup
    obtain ⟨hy, hl⟩ := List.pairwise_cons.1 hl
    by_cases hp : p y
    · simp only [hp, not_true_eq_false, decide_false, Bool.false_eq_true, not_false_eq_true,
        List.takeWhile_cons_of_neg, List.dropWhile_cons_of_neg, List.nil_append]
      refine List.pairwise_cons.2 ⟨fun z hz => ?_, List.pairwise_cons.2 ⟨hy, hl⟩⟩
      rcases List.mem_cons.1 hz with rfl | hz
      · exact hpost z List.mem_cons_self hp
      · exact hpost z (List.mem_cons_of_mem y hz) (hup y z (hy z hz) hp)
    · simp only [hp, not_false_eq_true, decide_true, List.takeWhile_cons_of_pos,
        List.dropWhile_cons_of_pos, List.cons_append]
      refine List.pairwise_cons.2 ⟨fun z hz => ?_, ih hl
        (fun z hz => hpre z (List.mem_cons_of_mem y hz))
        (fun z hz => hpost z (List.mem_cons_of_mem y hz)) hup⟩
      rcases List.mem_append.1 hz with hz | hz
      · exact hy z (List.takeWhile_subset _ hz)
      · rcases List.mem_cons.1 hz with rfl | hz
        · exact hpre y List.mem_cons_self hp
        · exact hy z (List.dropWhile_subset _ hz)

end Links

end AntTracer
