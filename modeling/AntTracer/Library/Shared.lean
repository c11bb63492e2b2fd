import Mathlib.Logic.Relation
import Mathlib.Tactic

/-!
# Code that shares its state

Code is given here as the accesses it makes to a state that others also
change. Before each access the others act, by a relation `R`. `Code.Meets` is
the weakest precondition of a run among them, with an invariant that the code
keeps at each access; it goes through sequencing (`meets_bind`), and holds of
every interleaving (`meets_runs`).
-/

namespace AntTracer

namespace Shared

open Relation

variable {σ α β : Type}

/-- Accesses to a state, one after another, each chosen by what the ones
before it read. -/
inductive Code (σ α : Type) : Type 1 where
  | ret (a : α)
  | access {β : Type} (f : σ → β × σ) (k : β → Code σ α)

namespace Code

/-- One piece of code and then another. -/
def andThen (c : Code σ α) (k : α → Code σ β) : Code σ β :=
  match c with
  | ret a => k a
  | access f k' => access f fun b => (k' b).andThen k

instance : Monad (Code σ) where
  pure := ret
  bind := andThen

/-- Read something. -/
def load (f : σ → β) : Code σ β := access (fun s => (f s, s)) ret

/-- Write something. -/
def store (f : σ → σ) : Code σ Unit := access (fun s => ((), f s)) ret

/-- The code with nobody else at work. -/
def alone : Code σ α → σ → α × σ
  | ret a, s => (a, s)
  | access f k, s => (k (f s).1).alone (f s).2

/-- The code with others who do `g` before each access. -/
def among (g : σ → σ) : Code σ α → σ → α × σ
  | ret a, s => (a, s)
  | access f k, s => (k (f (g s)).1).among g (f (g s)).2

/-- With them the code finds `P` at each access. -/
def Finds (P : σ → Prop) (g : σ → σ) : Code σ α → σ → Prop
  | ret _, _ => True
  | access f k, s => P (g s) ∧ (k (f (g s)).1).Finds P g (f (g s)).2

instance decFinds (P : σ → Prop) [DecidablePred P] (g : σ → σ) :
    ∀ (c : Code σ α) (s : σ), Decidable (c.Finds P g s)
  | ret _, _ => .isTrue trivial
  | access f k, s =>
    have := decFinds P g (k (f (g s)).1) (f (g s)).2
    inferInstanceAs (Decidable (_ ∧ _))

/-- Whatever the others do, the code keeps `I` at each access and returns
with `Q`. -/
def Meets (R : σ → σ → Prop) (I : σ → Prop) (Q : α → σ → Prop) : Code σ α → σ → Prop
  | ret a, s => Q a s
  | access f k, s => ∀ u, R s u → I (f u).2 ∧ (k (f u).1).Meets R I Q (f u).2

/-- The others act, and the code makes an access. -/
inductive Step (R : σ → σ → Prop) : Code σ α × σ → Code σ α × σ → Prop where
  | access {β : Type} {f : σ → β × σ} {k : β → Code σ α} {s u : σ} (h : R s u) :
      Step R (.access f k, s) (k (f u).1, (f u).2)

/-- An interleaving of the code with the others, up to some access. -/
def Runs (R : σ → σ → Prop) : Code σ α × σ → Code σ α × σ → Prop := ReflTransGen (Step R)

variable {R : σ → σ → Prop} {I : σ → Prop} {Q : α → σ → Prop} {c c' : Code σ α}
  {k : α → Code σ β} {s s' : σ} {a : α}

/-! ## Code alone -/

@[simp] theorem alone_pure : (pure a : Code σ α).alone s = (a, s) := rfl

@[simp] theorem alone_bind : (c >>= k).alone s = (k (c.alone s).1).alone (c.alone s).2 := by
  induction c generalizing s with
  | ret a => rfl
  | access f k' ih => exact ih _

@[simp] theorem alone_load {f : σ → α} : (load f).alone s = (f s, s) := rfl

@[simp] theorem alone_store {f : σ → σ} : (store f).alone s = ((), f s) := rfl

/-- The rest of the code is about what was read. -/
theorem alone_load_bind {f : σ → α} : (load f >>= k).alone s = (k (f s)).alone s := rfl

theorem alone_ite {p : Prop} [Decidable p] :
    (if p then c else c').alone s = if p then c.alone s else c'.alone s := by
  split <;> rfl

/-! ## Code among others -/

@[simp] theorem meets_pure : (pure a : Code σ α).Meets R I Q = Q a := rfl

@[simp] theorem meets_bind {Q : β → σ → Prop} :
    (c >>= k).Meets R I Q = c.Meets R I fun a => (k a).Meets R I Q := by
  induction c with
  | ret a => rfl
  | access f k' ih =>
    funext s
    refine propext (forall₂_congr fun u _ => and_congr_right fun _ => ?_)
    rw [← ih]
    rfl

theorem meets_load {f : σ → α} (h : ∀ u, R s u → I u ∧ Q (f u) u) :
    (load f).Meets R I Q s := h

theorem meets_store {f : σ → σ} {Q : Unit → σ → Prop}
    (h : ∀ u, R s u → I (f u) ∧ Q () (f u)) : (store f).Meets R I Q s := h

/-- **Every interleaving.** The invariant holds after each access, and what is
left of the code meets the same. -/
theorem meets_runs (h : c.Meets R I Q s) (hs : I s) (hruns : Runs R (c, s) (c', s')) :
    I s' ∧ c'.Meets R I Q s' := by
  generalize hx : (c, s) = x at hruns
  generalize hy : (c', s') = y at hruns
  induction hruns generalizing c' s' with
  | refl =>
    obtain ⟨rfl, rfl⟩ := Prod.mk.inj (hx.trans hy.symm)
    exact ⟨hs, h⟩
  | tail hruns hstep ih =>
    cases hstep with
    | access hrel =>
      obtain ⟨rfl, rfl⟩ := Prod.mk.inj hy
      exact (ih rfl).2 _ hrel

theorem finds_trivial {g : σ → σ} : c.Finds (fun _ => True) g s := by
  induction c generalizing s with
  | ret a => trivial
  | access f k ih => exact ⟨trivial, ih _⟩

/-- What the others may do they may do each time. -/
theorem runs_among {g : σ → σ} {P : σ → Prop} (hR : ∀ s, P (g s) → R s (g s))
    (h : c.Finds P g s) : Runs R (c, s) (pure (c.among g s).1, (c.among g s).2) := by
  induction c generalizing s with
  | ret a => exact .refl
  | access f k ih => exact .head (.access (hR s h.1)) (ih _ h.2)

end Code

end Shared

end AntTracer
