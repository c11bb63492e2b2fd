import AntTracer.App.Store
import Mathlib.Logic.Relation

/-!
# What a pass of the super loop does

A pass of `StoreSuperLoop` is a number of rounds, one for each time it comes
to its `switch`. Whatever is to hold of the store is shown of one round
(`Round`), and the passes follow (`storeLoop_rounds`). There are never more
rounds than the model allows for (`storeLoop_fuel`).
-/

namespace AntTracer

namespace App

/-- The flag of a part. -/
def Part.flag (f : OpFlags) : Part → Bool
  | .hdr => f.swUpdate
  | .data => f.swChunk
  | .exec => f.swExec

/-- The flags without that of a part. -/
def Part.clear (f : OpFlags) : Part → OpFlags
  | .hdr => { f with swUpdate := false }
  | .data => { f with swChunk := false }
  | .exec => { f with swExec := false }

/-- The flag for the configuration cleared. -/
def takeConfig (s : Store) : Store :=
  { s with opFlag := { s.opFlag with config := false }, state := .config0 }

/-- One round of `StoreSuperLoop`, in the states it can be called in. -/
inductive Round (s : Store) : Store → Prop
  | init0 (h : s.state = .init0) : Round s (init0 s)
  /-- a copy of the configuration is written to a free slot -/
  | slot {i : ℕ} (h : s.state = .idle) (hflag : s.opFlag.config = true ∧ timeout s)
    (hi : freeSlot s.log.flash = some i) : Round s (writeSlot i (copyConfig (takeConfig s)))
  /-- there is none: it is written to the log first -/
  | full (h : s.state = .idle) (hflag : s.opFlag.config = true ∧ timeout s)
    (hfull : freeSlot s.log.flash = none) :
    Round s (handed
      (appendRecord rtConfig (configFields (copyConfig (takeConfig s)).log.staging.config)
        (copyConfig (takeConfig s)).log)
      { copyConfig (takeConfig s) with
        savedState := .config1
        wanted := s.wanted ++ [recordWords rtConfig
          (configFields (copyConfig (takeConfig s)).log.staging.config) s.log.buf] })
  /-- a part of a software update is written to the log -/
  | part (p : Part) (st : State) (h : s.state = .idle) (hflag : p.flag s.opFlag = true) :
    Round s (handed (appendRecord p.type (p.fields s.log.staging.su) s.log)
      { s with
        opFlag := p.clear s.opFlag
        state := st
        savedState := .idle
        wanted := s.wanted ++ [recordWords p.type (p.fields s.asked) s.log.buf] })
  /-- the log is written on -/
  | go (h : s.state = .writing) (hfc : s.log.flashComplete = true) : Round s (handed (wrGo s.log) s)
  /-- the configuration page is erased -/
  | erase (h : s.state = .config1) :
    Round s { s with log := flashErase configStart s.log, state := .config2 }
  /-- the copy is written to the first slot -/
  | rewrite (h : s.state = .config2) (hfc : s.log.flashComplete = true) : Round s (writeSlot 0 s)
  /-- the save is complete -/
  | saved (h : s.state = .config3) (hfc : s.log.flashComplete = true) : Round s { s with
      configSaving := false
      state := .idle
      saved := s.saves.getLast?.map Save.config }

/-- The states in which a pass begins and ends, and those in between. -/
structure Resting (s : Store) : Prop where
  state : s.state = .init0 ∨ s.state = .idle ∨ s.state = .writing ∨ s.state = .config1 ∨
    s.state = .config2 ∨ s.state = .config3
  savedState : s.state = .writing → s.savedState = .idle ∨ s.savedState = .config1

theorem resting_handed {r : Log × Bool} {s : Store}
    (h : s.savedState = .idle ∨ s.savedState = .config1) : Resting (handed r s) := by
  refine ⟨?_, fun _ => h⟩
  rcases r with ⟨l, _ | _⟩
  · rcases h with h | h <;> simp [handed, h]
  · simp [handed]

/-- **A round ends at rest.** -/
theorem Round.resting {s s' : Store} (h : Round s s') (hs : Resting s) : Resting s' := by
  cases h with
  | init0 => exact ⟨Or.inr (Or.inl rfl), nofun⟩
  | slot => exact ⟨by simp [writeSlot], nofun⟩
  | full => exact resting_handed (Or.inr rfl)
  | part => exact resting_handed (Or.inl rfl)
  | go h => exact resting_handed (hs.savedState h)
  | erase => exact ⟨by simp, nofun⟩
  | rewrite => exact ⟨by simp [writeSlot], nofun⟩
  | saved => exact ⟨by simp, nofun⟩

/-- **A pass is made of rounds.** -/
theorem storeLoop_rounds (n : ℕ) : ∀ s : Store, Resting s →
    Relation.ReflTransGen Round s (storeLoop n s).1 := by
  induction n with
  | zero => exact fun s _ => .refl
  | succ n ih =>
    intro s hs
    -- a round, and then on if `wrGo` is through
    have hdo : ∀ (r : Log × Bool) (s' : Store), Round s (handed r s') →
        Relation.ReflTransGen Round s (doWrite (storeLoop n) r s').1 := by
      intro r s' hr
      unfold doWrite
      split
      · exact .single hr
      · exact .head hr (ih _ (hr.resting hs))
    rw [storeLoop]
    rcases hs.state with h | h | h | h | h | h <;> rw [h] <;> dsimp only
    · exact .single (.init0 h)
    · unfold idle
      split
      · rename_i hflag
        rw [config0]
        dsimp only
        split
        · rename_i i hi
          exact .single (.slot h hflag hi)
        · rename_i hi
          exact hdo _ _ (.full h hflag hi)
      split
      · rename_i hflag
        exact hdo _ _ (.part .hdr .suHdr0 h hflag)
      split
      · rename_i hflag
        exact hdo _ _ (.part .data .suData0 h hflag)
      split
      · rename_i hflag
        exact hdo _ _ (.part .exec .suExec0 h hflag)
      · exact .refl
    · split
      · exact .refl
      · rename_i hfc
        exact hdo _ _ (.go h (not_not.1 hfc))
    · exact .single (.erase h)
    · split
      · exact .refl
      · rename_i hfc
        exact .single (.rewrite h (not_not.1 hfc))
    · split
      · exact .refl
      · rename_i hfc
        exact .single (.saved h (not_not.1 hfc))

/-- **The rule for passes**: what every round keeps, a pass keeps. -/
theorem storeSuperLoop_inv {Inv : Store → Prop} (hrest : ∀ s, Inv s → Resting s)
    (hround : ∀ s s', Inv s → Round s s' → Inv s') {s : Store} (h : Inv s) :
    Inv (storeSuperLoop s).1 := by
  have hrounds := storeLoop_rounds 7 s (hrest s h)
  rw [storeSuperLoop]
  generalize (storeLoop 7 s).1 = s' at hrounds
  induction hrounds with
  | refl => exact h
  | tail _ hr ih => exact hround _ _ ih hr

/-! ## The number of rounds -/

/-- The flags that are set. -/
def OpFlags.count (f : OpFlags) : ℕ :=
  f.config.toNat + f.swUpdate.toNat + f.swChunk.toNat + f.swExec.toNat

/-- A bound for the rounds of a pass. -/
def roundsOf (s : Store) : ℕ :=
  match s.state with
  | .idle => s.opFlag.count + 2
  | .writing => s.opFlag.count + 3
  | _ => 1

theorem roundsOf_le (s : Store) : roundsOf s ≤ 7 := by
  have hcount : s.opFlag.count ≤ 4 := by
    rcases s.opFlag with ⟨_ | _, _ | _, _ | _, _ | _⟩ <;> decide
  unfold roundsOf
  split <;> omega

/-- A part has one flag, and clears it. -/
theorem Part.count_clear {p : Part} {f : OpFlags} (hp : p.flag f = true) :
    (p.clear f).count + 1 = f.count := by
  rcases f with ⟨_ | _, _ | _, _ | _, _ | _⟩ <;> cases p <;> revert hp <;> decide

theorem OpFlags.count_pos {f : OpFlags} (h : f.config = true) : 1 ≤ f.count := by
  rcases f with ⟨_ | _, _ | _, _ | _, _ | _⟩ <;> revert h <;> decide

/-- What is written next takes the rounds that are left, or fewer. -/
theorem doWrite_succ {n : ℕ}
    (ih : ∀ s : Store, Resting s → roundsOf s ≤ n → storeLoop (n + 1) s = storeLoop n s)
    (r : Log × Bool) {s : Store} (hsaved : s.savedState = .idle ∨ s.savedState = .config1)
    (hcount : s.savedState = .idle → s.opFlag.count + 2 ≤ n) (hpos : 1 ≤ n) :
    doWrite (storeLoop (n + 1)) r s = doWrite (storeLoop n) r s := by
  unfold doWrite
  by_cases hr : r.2 = true
  · rw [if_pos hr, if_pos hr]
  · rw [if_neg hr, if_neg hr]
    refine ih _ (resting_handed hsaved) ?_
    have hstate : (handed r s).state = s.savedState := if_neg hr
    unfold roundsOf
    rw [hstate]
    rcases hsaved with h | h <;> rw [h]
    · exact hcount h
    · exact hpos

theorem storeLoop_succ (n : ℕ) : ∀ s : Store, Resting s → roundsOf s ≤ n →
    storeLoop (n + 1) s = storeLoop n s := by
  induction n with
  | zero =>
    intro s _ hn
    unfold roundsOf at hn
    split at hn <;> omega
  | succ n ih =>
    intro s hs hn
    rw [storeLoop, storeLoop]
    rcases hs.state with h | h | h | h | h | h <;> rw [h] <;> dsimp only
    · -- each part clears its flag
      have hle : s.opFlag.count + 2 ≤ n + 1 := by
        unfold roundsOf at hn
        rw [h] at hn
        exact hn
      have hpart : ∀ p : Part, p.flag s.opFlag = true →
          (p.clear s.opFlag).count + 2 ≤ n ∧ 1 ≤ n := by
        intro p hp
        have := p.count_clear hp
        omega
      unfold idle
      split
      · rename_i hflag
        rw [config0, config0]
        dsimp only
        split
        · rfl
        · have := OpFlags.count_pos hflag.1
          exact doWrite_succ ih _ (Or.inr rfl) nofun (by omega)
      split
      · rename_i hflag
        exact doWrite_succ ih _ (Or.inl rfl) (fun _ => (hpart .hdr hflag).1) (hpart .hdr hflag).2
      split
      · rename_i hflag
        exact doWrite_succ ih _ (Or.inl rfl) (fun _ => (hpart .data hflag).1)
          (hpart .data hflag).2
      split
      · rename_i hflag
        exact doWrite_succ ih _ (Or.inl rfl) (fun _ => (hpart .exec hflag).1)
          (hpart .exec hflag).2
      · rfl
    · split
      · rfl
      · have hle : s.opFlag.count + 3 ≤ n + 1 := by
          unfold roundsOf at hn
          rw [h] at hn
          exact hn
        exact doWrite_succ ih _ (hs.savedState h) (fun _ => by omega) (by omega)

/-- **The rounds allowed for are enough.** -/
theorem storeLoop_fuel {s : Store} (hs : Resting s) (n : ℕ) :
    storeLoop (7 + n) s = (storeSuperLoop s) := by
  induction n with
  | zero => rfl
  | succ n ih =>
    rw [← ih]
    exact storeLoop_succ (7 + n) s hs ((roundsOf_le s).trans (Nat.le_add_right 7 n))

end App

end AntTracer
