import AntTracer.Time.Clock

/-!
# Reading the clock under interrupts

`GetTODZero64` reads the seconds, the fraction and the seconds once more, and
starts over when they differ. The interrupt comes between any two of these
reads. `snapshots_consistent` says that what is returned was the time at one
moment of the call, that later calls return no earlier times, and that a call
does return unless the seconds change again and again while it reads.
-/

namespace AntTracer

namespace Time

/-! ## The program -/

/-- Where a call of `GetTODZero64` is. -/
inductive Reading
  /-- there is none -/
  | idle
  /-- at the read of `s0` -/
  | seconds
  /-- at the read of `f0` -/
  | fraction (s0 : Word)
  /-- at the read of `s1` -/
  | again (s0 f0 : Word)

/-- The clock and the calls. -/
structure Snapshots where
  clock : Clock
  reading : Reading
  /-- history: `tod0` and `tod0Frac` at each moment of the call so far -/
  moments : List (Word × Word)
  /-- history: what the calls returned, and the moments of each -/
  returned : List (BitVec 64 × List (Word × Word))

/-- The seconds and the fraction. -/
def Snapshots.now (s : Snapshots) : Word × Word := (s.clock.tod0, s.clock.tod0Frac)

/-- No call so far. -/
def Snapshots.start (c : Clock) : Snapshots := ⟨c, .idle, [], []⟩

/-- `GetTODZero64` is called, or goes on. -/
def getStep (s : Snapshots) : Snapshots :=
  match s.reading with
  | .idle => { s with reading := .seconds, moments := [s.now] }
  | .seconds => { s with reading := .fraction s.clock.tod0 }
  | .fraction s0 => { s with reading := .again s0 s.clock.tod0Frac }
  | .again s0 f0 =>
    if s0 ≠ s.clock.tod0 then { s with reading := .seconds }
    else
      { s with
        reading := .idle
        moments := []
        returned := s.returned ++ [(stamp64 s0 f0, s.moments)] }

/-- The interrupt calls `updateTOD`. -/
def interrupt (cntr : Word) (s : Snapshots) : Snapshots :=
  let clock := updateTOD cntr s.clock
  { s with
    clock := clock
    moments :=
      match s.reading with
      | .idle => []
      | _ => s.moments ++ [(clock.tod0, clock.tod0Frac)] }

/-- What can happen next. -/
inductive SnapshotEvent
  | interrupt (cntr : Word)
  | get

/-- One step. -/
def snapshotStep (s : Snapshots) : SnapshotEvent → Snapshots
  | .interrupt cntr => interrupt cntr s
  | .get => getStep s

/-- The interrupt does not take the time back. -/
def Forward (s : Snapshots) : SnapshotEvent → Prop
  | .interrupt cntr => getTODZero64 s.clock ≤ getTODZero64 (updateTOD cntr s.clock)
  | .get => True

/-! ## The invariant -/

/-- A pair of seconds and fraction as it is returned. -/
abbrev stampOf (p : Word × Word) : BitVec 64 := stamp64 p.1 p.2

/-- **What holds between the reads.** -/
structure Snapshots.Consistent (s : Snapshots) : Prop where
  /-- each call returned the time at one of its moments -/
  current : ∀ r ∈ s.returned, ∃ p ∈ r.2, r.1 = stampOf p
  /-- and no call less than one before it -/
  sorted : (s.returned.map Prod.fst).Pairwise (· ≤ ·)
  /-- the time has not gone back since -/
  le_now : ∀ r ∈ s.returned, r.1 ≤ stampOf s.now
  le_moments : ∀ r ∈ s.returned, ∀ p ∈ s.moments, r.1 ≤ stampOf p
  moments_le : ∀ p ∈ s.moments, stampOf p ≤ stampOf s.now
  /-- in a call, it is one of the moments -/
  now_mem : (∃ s0, s.reading = .fraction s0) ∨ s.reading = .seconds → s.now ∈ s.moments
  /-- the seconds read first are not after those the fraction goes with, and
  these are not after those to be read -/
  fraction : ∀ s0, s.reading = .fraction s0 → s0 ≤ s.clock.tod0
  again : ∀ s0 f0, s.reading = .again s0 f0 →
    s.now ∈ s.moments ∧ ∃ s1, (s1, f0) ∈ s.moments ∧ s0 ≤ s1 ∧ s1 ≤ s.clock.tod0

section Steps

variable {s : Snapshots}

theorem Snapshots.Consistent.start (c : Clock) : (Snapshots.start c).Consistent :=
  ⟨nofun, .nil, nofun, nofun, nofun, fun h => h.elim (fun ⟨_, h⟩ => nomatch h) nofun, nofun, nofun⟩

theorem fst_le_of_stampOf_le {p q : Word × Word} (h : stampOf p ≤ stampOf q) : p.1 ≤ q.1 := by
  rcases stamp64_le.1 h with hlt | ⟨heq, -⟩
  · exact BitVec.le_of_lt hlt
  · exact heq ▸ BitVec.le_refl _

/-- **An interrupt**, in any place of a call. -/
theorem Snapshots.Consistent.interrupt (h : s.Consistent) {cntr : Word}
    (hle : getTODZero64 s.clock ≤ getTODZero64 (updateTOD cntr s.clock)) :
    (Time.interrupt cntr s).Consistent := by
  have hnow : stampOf s.now ≤ stampOf (Time.interrupt cntr s).now := hle
  have hsecs : s.clock.tod0 ≤ (updateTOD cntr s.clock).tod0 := fst_le_of_stampOf_le hnow
  have hsub : ∀ p ∈ (Time.interrupt cntr s).moments,
      p ∈ s.moments ∨ p = (Time.interrupt cntr s).now := by
    intro p hp
    unfold Time.interrupt at hp
    dsimp only at hp
    split at hp
    · cases hp
    · exact (List.mem_append.1 hp).imp id List.mem_singleton.1
  have hmem : s.reading ≠ .idle →
      (Time.interrupt cntr s).moments = s.moments ++ [(Time.interrupt cntr s).now] := by
    intro hs
    unfold Time.interrupt Snapshots.now
    dsimp only
    split
    · rename_i heq
      exact absurd heq hs
    · rfl
  have hlast : s.reading ≠ .idle →
      (Time.interrupt cntr s).now ∈ (Time.interrupt cntr s).moments := by
    intro hs
    rw [hmem hs]
    exact List.mem_append_right _ (List.mem_singleton_self _)
  refine ⟨h.current, h.sorted, fun r hr => BitVec.le_trans (h.le_now r hr) hnow,
    fun r hr p hp => ?_, fun p hp => ?_, ?_, fun s0 hs => BitVec.le_trans (h.fraction s0 hs) hsecs,
    fun s0 f0 hs => ?_⟩
  · rcases hsub p hp with hp | rfl
    · exact h.le_moments r hr p hp
    · exact BitVec.le_trans (h.le_now r hr) hnow
  · rcases hsub p hp with hp | rfl
    · exact BitVec.le_trans (h.moments_le p hp) hnow
    · exact BitVec.le_refl _
  · rintro (⟨s0, hs⟩ | hs)
    · exact hlast fun hidle => Reading.noConfusion (hs.symm.trans hidle)
    · exact hlast fun hidle => Reading.noConfusion (hs.symm.trans hidle)
  · have hbusy : s.reading ≠ .idle := fun hidle => Reading.noConfusion (hs.symm.trans hidle)
    obtain ⟨-, s1, hp, h₁, h₂⟩ := h.again s0 f0 hs
    refine ⟨hlast hbusy, s1, ?_, h₁, BitVec.le_trans h₂ hsecs⟩
    rw [hmem hbusy]
    exact List.mem_append_left _ hp

/-- **The call returns** the time of one of its moments. -/
theorem Snapshots.Consistent.returns (h : s.Consistent) {p : Word × Word} (hp : p ∈ s.moments) :
    Snapshots.Consistent
      { s with
        reading := .idle
        moments := []
        returned := s.returned ++ [(stampOf p, s.moments)] } := by
  have hle : ∀ r ∈ s.returned, r.1 ≤ stampOf p := fun r hr => h.le_moments r hr p hp
  have hnow : stampOf p ≤ stampOf s.now := h.moments_le p hp
  refine ⟨fun r hr => ?_, ?_, fun r hr => ?_, fun _ _ => nofun, nofun, ?_, nofun, nofun⟩
  · rcases List.mem_append.1 hr with hr | hr
    · exact h.current r hr
    · rw [List.mem_singleton.1 hr]
      exact ⟨p, hp, rfl⟩
  · rw [List.map_append, List.map_singleton, List.pairwise_append]
    refine ⟨h.sorted, List.pairwise_singleton _ _, fun v hv w hw => ?_⟩
    obtain ⟨r, hr, rfl⟩ := List.mem_map.1 hv
    rw [List.mem_singleton.1 hw]
    exact hle r hr
  · rcases List.mem_append.1 hr with hr | hr
    · exact h.le_now r hr
    · rw [List.mem_singleton.1 hr]
      exact hnow
  · rintro (⟨_, hs'⟩ | hs') <;> cases hs'

/-- **A read.** When the seconds are the same again they have been so in
between, and the fraction goes with them. -/
theorem Snapshots.Consistent.get (h : s.Consistent) : (getStep s).Consistent := by
  unfold getStep
  split
  case h_1 hs =>
    -- the call begins, and now is its first moment
    refine ⟨h.current, h.sorted, h.le_now, fun r hr p hp => ?_, fun p hp => ?_, fun _ => ?_, nofun,
      nofun⟩
    · obtain rfl := List.mem_singleton.1 hp
      exact h.le_now r hr
    · obtain rfl := List.mem_singleton.1 hp
      exact BitVec.le_refl _
    · exact List.mem_singleton_self _
  case h_2 hs =>
    refine ⟨h.current, h.sorted, h.le_now, h.le_moments, h.moments_le,
      fun _ => h.now_mem (Or.inr hs), fun s0 hs0 => ?_, nofun⟩
    cases hs0
    exact BitVec.le_refl _
  case h_3 s0 hs =>
    -- the fraction goes with the seconds there are now, not with those read
    refine ⟨h.current, h.sorted, h.le_now, h.le_moments, h.moments_le, ?_, nofun,
      fun s0' f0 hf => ?_⟩
    · rintro (⟨_, hs'⟩ | hs') <;> cases hs'
    · cases hf
      exact ⟨h.now_mem (Or.inl ⟨s0, hs⟩), s.clock.tod0, h.now_mem (Or.inl ⟨s0, hs⟩),
        h.fraction s0 hs, BitVec.le_refl _⟩
  case h_4 s0 f0 hs =>
    obtain ⟨hnow, s1, hp, h₁, h₂⟩ := h.again s0 f0 hs
    split
    · -- around the loop again, in the same call
      exact ⟨h.current, h.sorted, h.le_now, h.le_moments, h.moments_le, fun _ => hnow, nofun, nofun⟩
    · -- the seconds between are neither less nor more
      rename_i heq
      obtain rfl : s0 = s.clock.tod0 := not_not.1 heq
      obtain rfl : s1 = s.clock.tod0 := BitVec.le_antisymm h₂ h₁
      exact h.returns (p := (s.clock.tod0, f0)) hp

end Steps

/-! ## The call returns -/

/-- The steps of the calls in a run. -/
def reads : List SnapshotEvent → ℕ
  | [] => 0
  | .get :: es => reads es + 1
  | .interrupt _ :: es => reads es

/-- How often the seconds change, from one moment to the next. -/
def secondChange (secs secs' : Word) : ℕ := if secs' = secs then 0 else 1

/-- And in a run. -/
def secondChanges : Snapshots → List SnapshotEvent → ℕ
  | _, [] => 0
  | s, e :: es =>
    secondChange s.clock.tod0 (snapshotStep s e).clock.tod0 + secondChanges (snapshotStep s e) es

/-- The steps a call takes yet, if the seconds do not change any more. -/
def Reading.left (secs : Word) : Reading → ℕ
  | .idle => 4
  | .seconds => 3
  | .fraction s0 => if s0 = secs then 2 else 5
  | .again s0 _ => if s0 = secs then 1 else 4

/-- **The measure.** -/
def Snapshots.readsLeft (s : Snapshots) : ℕ := s.reading.left s.clock.tod0

section Progress

theorem Reading.left_pos (r : Reading) (secs : Word) : 0 < r.left secs := by
  cases r with
  | idle | seconds => exact Nat.zero_lt_succ _
  | fraction s0 | again s0 f0 =>
    simp only [Reading.left]
    split_ifs <;> omega

/-- Other seconds cost a round of the loop at most. -/
theorem Reading.left_le (r : Reading) (secs secs' : Word) :
    r.left secs' ≤ r.left secs + 3 * secondChange secs secs' := by
  unfold secondChange
  by_cases hsame : secs' = secs
  · rw [hsame, if_pos rfl, Nat.mul_zero, Nat.add_zero]
  · rw [if_neg hsame]
    cases r with
    | idle | seconds => exact Nat.le_add_right ..
    | fraction s0 | again s0 f0 =>
      simp only [Reading.left]
      split <;> split <;> omega

/-- A step of the call is the last one, or makes them fewer. -/
theorem readsLeft_getStep (s : Snapshots) :
    (∃ r, (getStep s).returned = s.returned ++ [r]) ∨
      (s.readsLeft = (getStep s).readsLeft + 1 ∧ (getStep s).returned = s.returned) := by
  obtain ⟨c, r, m, ret⟩ := s
  cases r with
  | idle => exact Or.inr ⟨rfl, rfl⟩
  | seconds => exact Or.inr ⟨by simp [Snapshots.readsLeft, getStep, Reading.left], rfl⟩
  | fraction s0 =>
    refine Or.inr ⟨?_, rfl⟩
    change (if s0 = c.tod0 then 2 else 5) = (if s0 = c.tod0 then 1 else 4) + 1
    split_ifs <;> rfl
  | again s0 f0 =>
    by_cases heq : s0 = c.tod0
    · have hstep : getStep ⟨c, .again s0 f0, m, ret⟩ =
          ⟨c, .idle, [], ret ++ [(stamp64 s0 f0, m)]⟩ := if_neg (not_not.2 heq)
      exact Or.inl ⟨_, by rw [hstep]⟩
    · have hstep : getStep ⟨c, .again s0 f0, m, ret⟩ = ⟨c, .seconds, m, ret⟩ := if_pos heq
      refine Or.inr ⟨?_, by rw [hstep]⟩
      rw [hstep]
      exact if_neg heq

/-- Nothing returned is lost. -/
theorem returned_prefix (s : Snapshots) (es : List SnapshotEvent) :
    s.returned <+: (Runs.run snapshotStep s es).returned := by
  refine Runs.inv_run (P := fun t : Snapshots => s.returned <+: t.returned)
    (fun t e ht => ht.trans ?_) (List.prefix_refl _) es
  cases e with
  | interrupt => exact List.prefix_refl _
  | get =>
    rcases readsLeft_getStep t with ⟨r, hr⟩ | ⟨-, hr⟩
    · change t.returned <+: (getStep t).returned
      rw [hr]
      exact List.prefix_append ..
    · change t.returned <+: (getStep t).returned
      rw [hr]

/-- **The call returns**, if it gets the steps it takes and three more for each
time the seconds change. -/
theorem returns_of_reads (es : List SnapshotEvent) : ∀ s : Snapshots,
    s.readsLeft + 3 * secondChanges s es ≤ reads es →
    ∃ r, s.returned ++ [r] <+: (Runs.run snapshotStep s es).returned := by
  induction es with
  | nil =>
    intro s h
    have hpos := s.reading.left_pos s.clock.tod0
    simp only [reads, Snapshots.readsLeft] at h
    omega
  | cons e es ih =>
    intro s h
    cases e with
    | interrupt cntr =>
      have hle := s.reading.left_le s.clock.tod0 (interrupt cntr s).clock.tod0
      refine ih (interrupt cntr s) ?_
      simp only [reads, secondChanges, snapshotStep, Snapshots.readsLeft] at h
      change s.reading.left (interrupt cntr s).clock.tod0 + _ ≤ _
      omega
    | get =>
      rcases readsLeft_getStep s with ⟨r, hr⟩ | ⟨hleft, hr⟩
      · refine ⟨r, ?_⟩
        rw [← hr]
        exact returned_prefix (getStep s) es
      · rw [← hr]
        refine ih (getStep s) ?_
        simp only [reads, secondChanges, snapshotStep] at h
        omega

end Progress

/-! ## Runs -/

/-- A call without an interrupt returns the time there is. -/
theorem getTODZero64_returned {s : Snapshots} (hs : s.reading = .idle) :
    (Runs.run snapshotStep s (List.replicate 4 .get)).returned =
      s.returned ++ [(getTODZero64 s.clock, [s.now])] := by
  obtain ⟨c, r, m, ret⟩ := s
  obtain rfl : r = .idle := hs
  have hlast : getStep ⟨c, .again c.tod0 c.tod0Frac, [(c.tod0, c.tod0Frac)], ret⟩ =
      ⟨c, .idle, [], ret ++ [(getTODZero64 c, [(c.tod0, c.tod0Frac)])]⟩ := if_neg (not_not.2 rfl)
  exact congrArg Snapshots.returned hlast

/-- What the calls in a run return. -/
structure SnapshotsConsistent (c : Clock) (es : List SnapshotEvent) : Prop where
  /-- the time at one moment of the call -/
  current : ∀ r ∈ (Runs.run snapshotStep (.start c) es).returned, ∃ p ∈ r.2, r.1 = stamp64 p.1 p.2
  /-- and no less than the calls before it -/
  sorted : ((Runs.run snapshotStep (.start c) es).returned.map Prod.fst).Pairwise (· ≤ ·)
  /-- a call does return, after three more steps for each time the seconds
  change -/
  returns : ∀ pre post, es = pre ++ post →
    (Runs.run snapshotStep (.start c) pre).reading = .idle →
    4 + 3 * secondChanges (Runs.run snapshotStep (.start c) pre) post ≤ reads post →
    ∃ r, (Runs.run snapshotStep (.start c) pre).returned ++ [r] <+:
      (Runs.run snapshotStep (.start c) es).returned
  /-- and if no interrupt comes it returns the time there is -/
  alone : ∀ pre post, es = pre ++ (List.replicate 4 .get ++ post) →
    (Runs.run snapshotStep (.start c) pre).reading = .idle →
    (Runs.run snapshotStep (.start c) (pre ++ List.replicate 4 .get)).returned =
      (Runs.run snapshotStep (.start c) pre).returned ++
        [(getTODZero64 (Runs.run snapshotStep (.start c) pre).clock,
          [(Runs.run snapshotStep (.start c) pre).now])]

/-- **Snapshots are consistent**: a call returns the seconds and the fraction
of one moment in it, and no less than the calls before it. -/
theorem snapshots_consistent (c : Clock) (es : List SnapshotEvent)
    (h : Runs.Each snapshotStep Forward (.start c) es) : SnapshotsConsistent c es := by
  have hrun : (Runs.run snapshotStep (.start c) es).Consistent := by
    refine Runs.inv_of_each (fun s e hs he => ?_) (Snapshots.Consistent.start c) h
    cases e with
    | interrupt cntr => exact hs.interrupt he
    | get => exact hs.get
  refine ⟨hrun.current, hrun.sorted, ?_, ?_⟩
  · rintro pre post rfl hidle hreads
    rw [Runs.run_append]
    refine returns_of_reads post _ ?_
    rwa [Snapshots.readsLeft, hidle]
  · rintro pre post - hidle
    rw [Runs.run_append]
    exact getTODZero64_returned hidle

/-- The interrupt comes after the fraction was read, and changes the seconds;
then there is a second call. -/
def secondGoesBy : List SnapshotEvent :=
  [.get, .get, .get, .interrupt 32768#32, .get, .get, .get, .get] ++ List.replicate 4 .get

/-- The first call returns the time after the interrupt, and so does the
second. -/
theorem snapshots_consistent_second :
    SnapshotsConsistent .boot secondGoesBy ∧
      (Runs.run snapshotStep (.start .boot) secondGoesBy).returned =
        [(0x100000000#64, [(0#32, 0#32), (1#32, 0#32)]), (0x100000000#64, [(1#32, 0#32)])] :=
  ⟨snapshots_consistent .boot secondGoesBy
    ⟨trivial, trivial, trivial, BitVec.le_def.2 (by decide), trivial, trivial, trivial, trivial,
      trivial, trivial, trivial, trivial, trivial⟩, by decide⟩

end Time

end AntTracer
