import Mathlib.Tactic

/-!
# Runs of a step function

A system given by a total step function: events come in any order and the
state after a run is a fold. A condition on steps is asked of each step in
the state before it, and a property of states in every state the run goes
through. The rules below take a step lemma to a run lemma; nothing here
names a program.
-/

namespace AntTracer

namespace Runs

variable {σ α : Type*} (step : σ → α → σ)

/-- The state after a run. -/
def run (s : σ) (es : List α) : σ := es.foldl step s

/-- Every step of the run meets `C`, in the state before it. -/
def Each (C : σ → α → Prop) : σ → List α → Prop
  | _, [] => True
  | s, e :: es => C s e ∧ Each C (step s e) es

/-- Every state of the run, the first and the last included, has `P`. -/
def Throughout (P : σ → Prop) : σ → List α → Prop
  | s, [] => P s
  | s, e :: es => P s ∧ Throughout P (step s e) es

variable {step} {C : σ → α → Prop} {P Q Inv : σ → Prop}

instance decidableEach [∀ s e, Decidable (C s e)] : ∀ (s : σ) (es : List α),
    Decidable (Each step C s es)
  | _, [] => .isTrue trivial
  | s, e :: es =>
    have := decidableEach (step s e) es
    inferInstanceAs (Decidable (C s e ∧ Each step C (step s e) es))

instance decidableThroughout [DecidablePred P] :
    ∀ (s : σ) (es : List α), Decidable (Throughout step P s es)
  | s, [] => inferInstanceAs (Decidable (P s))
  | s, e :: es =>
    have := decidableThroughout (step s e) es
    inferInstanceAs (Decidable (P s ∧ Throughout step P (step s e) es))

@[simp] theorem run_nil (s : σ) : run step s [] = s := rfl

@[simp] theorem run_cons (s : σ) (e : α) (es : List α) :
    run step s (e :: es) = run step (step s e) es := rfl

theorem run_append (s : σ) (es es' : List α) :
    run step s (es ++ es') = run step (run step s es) es' := List.foldl_append

theorem each_append {s : σ} {es es' : List α} :
    Each step C s (es ++ es') ↔ Each step C s es ∧ Each step C (run step s es) es' := by
  induction es generalizing s with
  | nil => simp [Each]
  | cons e es ih => simp only [List.cons_append, Each, run_cons, ih, and_assoc]

theorem each_and {D : σ → α → Prop} {s : σ} {es : List α} (h : Each step C s es)
    (h' : Each step D s es) :
    Each step (fun s e => C s e ∧ D s e) s es := by
  induction es generalizing s with
  | nil => trivial
  | cons e es ih => exact ⟨⟨h.1, h'.1⟩, ih h.2 h'.2⟩

/-- A property of every state is one of the state after any beginning of
the run. -/
theorem throughout_iff {s : σ} {es : List α} :
    Throughout step P s es ↔ ∀ es', es' <+: es → P (run step s es') := by
  induction es generalizing s with
  | nil => simp [Throughout]
  | cons e es ih =>
    rw [Throughout, ih]
    constructor
    · rintro ⟨h, hrest⟩ es' hpre
      cases es' with
      | nil => exact h
      | cons e' es' =>
        obtain ⟨rfl, htail⟩ := List.cons_prefix_cons.1 hpre
        exact hrest es' htail
    · intro h
      exact ⟨h [] (List.nil_prefix ..),
        fun es' hpre => h (e :: es') (List.cons_prefix_cons.2 ⟨rfl, hpre⟩)⟩

theorem Throughout.mono (h : ∀ s, P s → Q s) {s : σ} {es : List α} (hP : Throughout step P s es) :
    Throughout step Q s es := by
  rw [throughout_iff] at *
  exact fun es' hpre => h _ (hP es' hpre)

/-- **The invariant rule.** What a step that meets the condition preserves
holds throughout a run whose steps all meet it. -/
theorem throughout_of_each (hstep : ∀ s e, Inv s → C s e → Inv (step s e)) {s : σ} (hs : Inv s)
    {es : List α} (h : Each step C s es) : Throughout step Inv s es := by
  induction es generalizing s with
  | nil => exact hs
  | cons e es ih => exact ⟨hs, ih (hstep s e hs h.1) h.2⟩

theorem inv_of_each (hstep : ∀ s e, Inv s → C s e → Inv (step s e)) {s : σ} (hs : Inv s)
    {es : List α} (h : Each step C s es) : Inv (run step s es) :=
  throughout_iff.1 (throughout_of_each hstep hs h) es (List.prefix_refl es)

/-- What an invariant and the condition say of a step holds of every step
of such a run. -/
theorem each_of_each {D : σ → α → Prop} (hstep : ∀ s e, Inv s → C s e → Inv (step s e))
    (hD : ∀ s e, Inv s → C s e → D s e) {s : σ} (hs : Inv s) {es : List α} (h : Each step C s es) :
    Each step D s es := by
  induction es generalizing s with
  | nil => trivial
  | cons e es ih => exact ⟨hD s e hs h.1, ih (hstep s e hs h.1) h.2⟩

/-- What every step preserves holds after a run. -/
theorem inv_run (hstep : ∀ s e, P s → P (step s e)) {s : σ} (hs : P s) (es : List α) :
    P (run step s es) := by
  induction es generalizing s with
  | nil => exact hs
  | cons e es ih => exact ih (hstep s e hs)

/-- **The exact rule.** If from an invariant state a step keeps `P` just
when it meets the condition, then a run keeps `P` throughout just when all
its steps meet it. -/
theorem throughout_iff_each (hstep : ∀ s e, Inv s → C s e → Inv (step s e))
    (hexact : ∀ s e, Inv s → (P (step s e) ↔ C s e)) {s : σ} (hs : Inv s) (hP : P s)
    {es : List α} : Throughout step P s es ↔ Each step C s es := by
  induction es generalizing s with
  | nil => simp [Throughout, Each, hP]
  | cons e es ih =>
    rw [Throughout, Each]
    constructor
    · rintro ⟨-, h⟩
      have hPe : P (step s e) := by
        cases es with
        | nil => exact h
        | cons _ _ => exact h.1
      have hC := (hexact s e hs).1 hPe
      exact ⟨hC, (ih (hstep s e hs hC) hPe).1 h⟩
    · rintro ⟨hC, h⟩
      exact ⟨hP, (ih (hstep s e hs hC) ((hexact s e hs).2 hC)).2 h⟩

/-- **The simulation rule.** If a step that may fail has a result wherever it
is related to a total one, and the results are related, then a run has one
that is related to the total run. The events may be known to meet a
condition. -/
theorem exists_foldlM_run_of {τ : Type*} {f : σ → α → Option σ} {g : τ → α → τ} {R : τ → σ → Prop}
    {C : α → Prop} (hstep : ∀ t s e, C e → R t s → ∃ s', f s e = some s' ∧ R (g t e) s')
    {t : τ} {s : σ} (h : R t s) {es : List α} (hes : ∀ e ∈ es, C e) :
    ∃ s', es.foldlM f s = some s' ∧ R (run g t es) s' := by
  induction es generalizing t s with
  | nil => exact ⟨s, rfl, h⟩
  | cons e es ih =>
    obtain ⟨s₁, hf, h₁⟩ := hstep t s e (hes e List.mem_cons_self) h
    rw [List.foldlM_cons, hf]
    exact ih h₁ fun e' he' => hes e' (List.mem_cons_of_mem e he')

theorem exists_foldlM_run {τ : Type*} {f : σ → α → Option σ} {g : τ → α → τ} {R : τ → σ → Prop}
    (hstep : ∀ t s e, R t s → ∃ s', f s e = some s' ∧ R (g t e) s') {t : τ} {s : σ} (h : R t s)
    (es : List α) : ∃ s', es.foldlM f s = some s' ∧ R (run g t es) s' :=
  exists_foldlM_run_of (C := fun _ => True) (fun t s e _ => hstep t s e) h fun _ _ => trivial

/-- What every step that has a result preserves holds after a run that has
one. -/
theorem inv_foldlM {f : σ → α → Option σ} (hstep : ∀ s e s', Inv s → f s e = some s' → Inv s')
    {s s' : σ} (hs : Inv s) {es : List α} (h : es.foldlM f s = some s') : Inv s' := by
  induction es generalizing s with
  | nil => exact Option.some.inj h ▸ hs
  | cons e es ih =>
    rw [List.foldlM_cons] at h
    obtain ⟨s₁, hf, hrest⟩ := Option.bind_eq_some_iff.1 h
    exact ih (hstep s e s₁ hs hf) hrest

/-- If from an invariant state a step gives an invariant state, no run
fails. -/
theorem exists_foldlM {f : σ → α → Option σ} (hstep : ∀ s e, Inv s → ∃ s', f s e = some s' ∧ Inv s')
    {s : σ} (hs : Inv s) (es : List α) : ∃ s', es.foldlM f s = some s' ∧ Inv s' :=
  exists_foldlM_run (g := fun t _ => t) (R := fun _ : Unit => Inv) (fun _ s e => hstep s e)
    (t := ()) hs es

/-! ## One step of a run -/

/-- A step of a list is its first or one of the rest. -/
theorem exists_split_cons {Q : List α → α → List α → Prop} {a : α} {l : List α} :
    (∃ pre b post, a :: l = pre ++ b :: post ∧ Q pre b post) ↔
      Q [] a l ∨ ∃ pre b post, l = pre ++ b :: post ∧ Q (a :: pre) b post := by
  constructor
  · rintro ⟨pre, b, post, heq, h⟩
    cases pre with
    | nil =>
      obtain ⟨rfl, rfl⟩ := List.cons.inj heq
      exact Or.inl h
    | cons d pre =>
      obtain ⟨rfl, rfl⟩ := List.cons.inj heq
      exact Or.inr ⟨pre, b, post, rfl, h⟩
  · rintro (h | ⟨pre, b, post, rfl, h⟩)
    · exact ⟨[], a, l, rfl, h⟩
    · exact ⟨a :: pre, b, post, rfl, h⟩

/-- A step of a list is its last or one of those before it. -/
theorem forall_split_concat {Q : List α → α → Prop} {a : α} {l : List α} :
    (∀ pre b post, l ++ [a] = pre ++ b :: post → Q pre b) ↔
      (∀ pre b post, l = pre ++ b :: post → Q pre b) ∧ Q l a := by
  constructor
  · refine fun h => ⟨fun pre b post heq => h pre b (post ++ [a]) ?_, h l a [] rfl⟩
    rw [heq, List.append_assoc, List.cons_append]
  · rintro ⟨hrest, hlast⟩ pre b post heq
    rcases List.eq_nil_or_concat post with rfl | ⟨post, c, rfl⟩
    · obtain ⟨rfl, hab⟩ := List.append_inj' heq rfl
      rwa [← (List.cons.inj hab).1]
    · rw [List.concat_eq_append, ← List.cons_append, ← List.append_assoc] at heq
      exact hrest pre b post (List.append_inj' heq rfl).1

/-- What holds at the start of a run and not at its end is lost in some step. -/
theorem exists_step_of_lost {s : σ} {es : List α} (hs : P s) (hlost : ¬ P (run step s es)) :
    ∃ pre e post, es = pre ++ e :: post ∧
      P (run step s pre) ∧ ¬ P (step (run step s pre) e) := by
  induction es generalizing s with
  | nil => exact absurd hs hlost
  | cons e es ih =>
    by_cases hstep : P (step s e)
    · obtain ⟨pre, e', post, rfl, hpre, hpost⟩ := ih hstep hlost
      exact ⟨e :: pre, e', post, rfl, hpre, hpost⟩
    · exact ⟨[], e, es, rfl, hs, hstep⟩

end Runs

end AntTracer
