import AntTracer.App.Capacity

/-!
# What waits is served

Each round of `StoreSuperLoop` takes a save or a request on its way, and there
are never more rounds to go than `stepsLeft` says. So however the soft device
gets through its operations, and whether it reports success or an error: if it
reports each, then after a bounded number of passes nothing is left to do, and
each request that waited has its record in the log (`served`).
-/

namespace AntTracer

namespace App

/-! ## Rounds that are left -/

/-- The flags of the parts that are set. -/
def partCount (f : OpFlags) : ℕ := f.swUpdate.toNat + f.swChunk.toNat + f.swExec.toNat

/-- A save is due. -/
def SaveDue (s : Store) : Prop := s.opFlag.config = true ∧ timeout s

instance (s : Store) : Decidable (SaveDue s) := inferInstanceAs (Decidable (_ ∧ _))

/-- A bound for the rounds to the end of what is under way. -/
def roundsLeft (s : Store) : ℕ :=
  match s.state with
  | .init0 => 8
  | .writing =>
    (if s.log.wrState = .erase1 then 2 else 1) + (if s.savedState = .config1 then 3 else 0)
  | .config1 => 3
  | .config2 => 2
  | .config3 => 1
  | _ => 0

/-- A bound for the rounds that are left. -/
def stepsLeft (s : Store) : ℕ :=
  roundsLeft s + (if SaveDue s then 6 else 0) + 3 * partCount s.opFlag

/-- There is nothing to do. -/
structure AtRest (s : Store) : Prop where
  state : s.state = .idle
  config : ¬ SaveDue s
  parts : ∀ p : Part, p.flag s.opFlag = false

/-- `StoreSuperLoop` waits for the soft device. -/
def Awaits (s : Store) : Prop := s.state = .writing ∨ s.state = .config2 ∨ s.state = .config3

instance (s : Store) : Decidable (Awaits s) := inferInstanceAs (Decidable (_ ∨ _))

section Rounds

variable {s s' : Store}

theorem partCount_clear {p : Part} {f : OpFlags} (hp : p.flag f = true) :
    partCount (p.clear f) + 1 = partCount f := by
  rcases f with ⟨c, u, d, x⟩
  cases p <;> simp only [Part.flag] at hp <;> subst hp <;>
    simp only [partCount, Part.clear, Bool.toNat_true, Bool.toNat_false] <;> omega

theorem stepsLeft_le (s : Store) : stepsLeft s ≤ 23 := by
  have hcount : partCount s.opFlag ≤ 3 := by
    have := s.opFlag.swUpdate.toNat_le
    have := s.opFlag.swChunk.toNat_le
    have := s.opFlag.swExec.toNat_le
    unfold partCount
    omega
  have hrounds : roundsLeft s ≤ 8 := by
    unfold roundsLeft
    split <;> try omega
    split_ifs <;> omega
  unfold stepsLeft
  split <;> omega

/-- At the end of what is under way. -/
theorem atRest_of_stepsLeft (hs : Resting s) (h : stepsLeft s = 0) : AtRest s := by
  unfold stepsLeft at h
  refine ⟨?_, fun hdue => ?_, fun p => ?_⟩
  · have hzero : roundsLeft s = 0 := by omega
    unfold roundsLeft at hzero
    rcases hs.state with h' | h' | h' | h' | h' | h' <;> rw [h'] at hzero ⊢ <;> dsimp only at hzero
    · cases hzero
    · exfalso
      split_ifs at hzero <;> omega
    · cases hzero
    · cases hzero
    · cases hzero
  · rw [if_pos hdue] at h
    omega
  · by_contra hp
    have := partCount_clear (p := p) (by simpa using hp)
    omega

/-- A record handed to `wrGo` takes two rounds, and one of the configuration
three more. -/
theorem stepsLeft_handed (r : Log × Bool) (s : Store)
    (hsaved : s.savedState = .idle ∨ s.savedState = .config1) :
    stepsLeft (handed r s) ≤ 2 + (if s.savedState = .config1 then 3 else 0) +
      (if SaveDue s then 6 else 0) + 3 * partCount s.opFlag := by
  have hdue : SaveDue (handed r s) ↔ SaveDue s := Iff.rfl
  have hrounds : roundsLeft (handed r s) ≤ 2 + (if s.savedState = .config1 then 3 else 0) := by
    unfold roundsLeft
    by_cases hr : r.2 = true
    · have hstate : (handed r s).state = .writing := if_pos hr
      rw [hstate]
      dsimp only
      have hsame : (handed r s).savedState = s.savedState := rfl
      rw [hsame]
      split_ifs <;> omega
    · have hstate : (handed r s).state = s.savedState := if_neg hr
      rw [hstate]
      rcases hsaved with h | h <;> rw [h] <;> dsimp only
      · omega
      · rw [if_pos rfl]
        omega
  unfold stepsLeft
  simp only [hdue]
  change _ + _ + 3 * partCount s.opFlag ≤ _
  omega

/-- A call of `wrGo` gets the record further on. -/
theorem roundsLeft_go (hstate : s.state = .writing) (hwork : Working s.log)
    (hsaved : s.savedState = .idle ∨ s.savedState = .config1) (hfc : s.log.flashComplete = true) :
    roundsLeft (handed (wrGo s.log) s) < roundsLeft s := by
  have hleft : roundsLeft s = (if s.log.wrState = .erase1 then 2 else 1) +
      (if s.savedState = .config1 then 3 else 0) := by rw [roundsLeft, hstate]
  have hend : (wrGo s.log).2 = false → roundsLeft (handed (wrGo s.log) s) =
      if s.savedState = .config1 then 3 else 0 := by
    intro hr
    have hto : (handed (wrGo s.log) s).state = s.savedState :=
      if_neg (by rw [hr]; exact Bool.false_ne_true)
    rw [roundsLeft, hto]
    rcases hsaved with h | h <;> rw [h]
    · rfl
    · rfl
  rw [hleft]
  rcases hwork.wrState with hwr | hwr
  · -- an erase is followed by a write
    have hne := hwork.go_state hfc
    rw [if_pos hwr]
    cases hr : (wrGo s.log).2 with
    | false =>
      rw [hend hr]
      omega
    | true =>
      have hto : (handed (wrGo s.log) s).state = .writing := if_pos hr
      have hnew : roundsLeft (handed (wrGo s.log) s) =
          (if (wrGo s.log).1.wrState = .erase1 then 2 else 1) +
            (if s.savedState = .config1 then 3 else 0) := by
        rw [roundsLeft, hto]
        rfl
      rw [hnew, if_neg hne]
      omega
  · have hr : (wrGo s.log).2 = false := by
      rw [hwork.go_eq hwr hfc]
      rfl
    have hne : s.log.wrState ≠ .erase1 := by
      rw [hwr]
      exact WrState.noConfusion
    rw [hend hr, if_neg hne]
    omega

/-- **Each round leaves fewer.** -/
theorem Round.stepsLeft_lt (h : Round s s') (hs : Sound s) : stepsLeft s' < stepsLeft s := by
  have hsame : s'.opFlag = s.opFlag → (SaveDue s' ↔ SaveDue s) → roundsLeft s' < roundsLeft s →
      stepsLeft s' < stepsLeft s := by
    intro hflags hdue hlt
    unfold stepsLeft
    rw [hflags]
    simp only [hdue]
    omega
  cases h with
  | init0 hstate =>
    obtain ⟨b, hinit⟩ := init0_eq s
    obtain ⟨timer, flag, saving, requests, hback⟩ :=
      callbacks_eq (configsIn (rawRecords storeRegion s.log.flash)) s
    have hflags : partCount (App.init0 s).opFlag = partCount s.opFlag := by
      rw [hinit, hback]
      rfl
    have hrounds : roundsLeft (App.init0 s) = 0 := rfl
    have hrounds' : roundsLeft s = 8 := by rw [roundsLeft, hstate]
    unfold stepsLeft
    rw [hflags, hrounds, hrounds']
    split_ifs <;> omega
  | @slot i hstate hflag hi =>
    have hdue : ¬ SaveDue (writeSlot i (copyConfig (takeConfig s))) :=
      fun hdue => Bool.false_ne_true hdue.1
    unfold stepsLeft
    rw [if_pos (show SaveDue s from hflag), if_neg hdue]
    change 1 + 0 + 3 * partCount s.opFlag < _
    omega
  | full hstate hflag hfull =>
    refine (stepsLeft_handed _ _ (Or.inr rfl)).trans_lt ?_
    rw [if_pos rfl, if_neg fun hdue => Bool.false_ne_true hdue.1, stepsLeft,
      if_pos (show SaveDue s from hflag)]
    change 2 + 3 + 0 + 3 * partCount s.opFlag < _
    omega
  | part p st hstate hflag =>
    refine (stepsLeft_handed _ _ (Or.inl rfl)).trans_lt ?_
    have hcount := partCount_clear hflag
    have hconfig : (p.clear s.opFlag).config = s.opFlag.config := by cases p <;> rfl
    have hsave : (if (p.clear s.opFlag).config = true ∧ timeout s then 6 else 0) =
        if SaveDue s then 6 else 0 := by
      rw [hconfig]
      rfl
    rw [if_neg (show ¬ State.idle = State.config1 from State.noConfusion), stepsLeft]
    change 2 + 0 + (if (p.clear s.opFlag).config = true ∧ timeout s then 6 else 0) +
      3 * partCount (p.clear s.opFlag) < _
    rw [hsave]
    omega
  | go hstate hfc =>
    obtain ⟨hwork, hsaved⟩ := hs.stage.writing hstate
    exact hsame rfl Iff.rfl (roundsLeft_go hstate hwork (hsaved.imp_right And.left) hfc)
  | erase hstate =>
    refine hsame rfl Iff.rfl ?_
    have hleft : roundsLeft s = 3 := by rw [roundsLeft, hstate]
    exact hleft ▸ Nat.lt_succ_self 2
  | rewrite hstate =>
    refine hsame rfl Iff.rfl ?_
    have hleft : roundsLeft s = 2 := by rw [roundsLeft, hstate]
    exact hleft ▸ Nat.lt_succ_self 1
  | saved hstate =>
    refine hsame rfl Iff.rfl ?_
    have hleft : roundsLeft s = 1 := by rw [roundsLeft, hstate]
    exact hleft ▸ Nat.lt_succ_self 0

end Rounds

/-! ## Passes -/

section Passes

variable {s s' : Store}

/-- **A pass does a round**, unless there is nothing to do, or the soft device
is not through. -/
theorem storeLoop_progress (n : ℕ) (s : Store) (hs : Resting s) :
    Relation.TransGen Round s (storeLoop (n + 1) s).1 ∨ ((storeLoop (n + 1) s).1 = s ∧
      (AtRest s ∨ (Awaits s ∧ s.log.flashComplete = false))) := by
  have hdo : ∀ (r : Log × Bool) (s' : Store), Round s (handed r s') →
      Relation.TransGen Round s (doWrite (storeLoop n) r s').1 := by
    intro r s' hr
    unfold doWrite
    split
    · exact .single hr
    · exact .head' hr (storeLoop_rounds n _ (hr.resting hs))
  rw [storeLoop]
  rcases hs.state with h | h | h | h | h | h <;> rw [h] <;> dsimp only
  · exact Or.inl (.single (.init0 h))
  · unfold idle
    split
    · rename_i hflag
      rw [config0]
      dsimp only
      split
      · rename_i i hi
        exact Or.inl (.single (.slot h hflag hi))
      · rename_i hi
        exact Or.inl (hdo _ _ (.full h hflag hi))
    rename_i hdue
    split
    · rename_i hflag
      exact Or.inl (hdo _ _ (.part .hdr .suHdr0 h hflag))
    rename_i hhdr
    split
    · rename_i hflag
      exact Or.inl (hdo _ _ (.part .data .suData0 h hflag))
    rename_i hdata
    split
    · rename_i hflag
      exact Or.inl (hdo _ _ (.part .exec .suExec0 h hflag))
    · rename_i hexec
      refine Or.inr ⟨rfl, Or.inl ⟨h, hdue, fun p => ?_⟩⟩
      cases p with
      | hdr => exact Bool.eq_false_iff.2 hhdr
      | data => exact Bool.eq_false_iff.2 hdata
      | exec => exact Bool.eq_false_iff.2 hexec
  · split
    · rename_i hfc
      exact Or.inr ⟨rfl, Or.inr ⟨Or.inl h, Bool.eq_false_iff.2 hfc⟩⟩
    · rename_i hfc
      exact Or.inl (hdo _ _ (.go h (not_not.1 hfc)))
  · exact Or.inl (.single (.erase h))
  · split
    · rename_i hfc
      exact Or.inr ⟨rfl, Or.inr ⟨Or.inr (Or.inl h), Bool.eq_false_iff.2 hfc⟩⟩
    · rename_i hfc
      exact Or.inl (.single (.rewrite h (not_not.1 hfc)))
  · split
    · rename_i hfc
      exact Or.inr ⟨rfl, Or.inr ⟨Or.inr (Or.inr h), Bool.eq_false_iff.2 hfc⟩⟩
    · rename_i hfc
      exact Or.inl (.single (.saved h (not_not.1 hfc)))

/-- Rounds leave fewer and fewer. -/
theorem Between.rounds_lt (h : Between s) (hrounds : Relation.TransGen Round s s')
    (hadv : s'.log.advances < 2 ^ 26 - 1) : Between s' ∧ stepsLeft s' < stepsLeft s := by
  induction hrounds with
  | single hround =>
    have hlt := hround.advances_le.trans_lt hadv
    exact ⟨h.round hround, hround.stepsLeft_lt (h.sound hlt)⟩
  | tail _ hround ih =>
    have hlt := hround.advances_le.trans_lt hadv
    obtain ⟨hmid, hle⟩ := ih hlt
    exact ⟨hmid.round hround, (hround.stepsLeft_lt (hmid.sound hlt)).trans hle⟩

/-! ## Turns -/

/-- The soft device does something, and a pass follows. -/
def turn (s : Store) (ds : List SdEvent) : Store :=
  storeStep { s with log := Runs.run sdEvent s.log ds } .loop

/-- The soft device reports, if it is waited for. -/
def Reports (s : Store) (ds : List SdEvent) : Prop :=
  Awaits s → (Runs.run sdEvent s.log ds).flashComplete = true

instance (s : Store) (ds : List SdEvent) : Decidable (Reports s ds) :=
  inferInstanceAs (Decidable (_ → _))

/-- Events of the soft device leave the passes what they were. -/
theorem device_run (h : Between s) (ds : List SdEvent) :
    Between { s with log := Runs.run sdEvent s.log ds } ∧
      stepsLeft { s with log := Runs.run sdEvent s.log ds } = stepsLeft s ∧
      (Runs.run sdEvent s.log ds).advances = s.log.advances := by
  induction ds generalizing s with
  | nil => exact ⟨h, rfl, rfl⟩
  | cons d ds ih =>
    obtain ⟨h₁, h₂, h₃⟩ := ih (h.step (.device d))
    obtain ⟨flash', sd', fc, tries, rs', written', refused', hbeside⟩ := sdEvent_beside s.log d
    refine ⟨h₁, h₂.trans ?_, h₃.trans ?_⟩
    · change stepsLeft { s with log := sdEvent s.log d } = _
      rw [hbeside]
      rfl
    · change (sdEvent s.log d).advances = _
      rw [hbeside]

/-- **A turn makes progress.** -/
theorem Between.turn_lt (h : Between s) {ds : List SdEvent} (hrep : Reports s ds)
    (hadv : (turn s ds).log.advances < 2 ^ 26 - 1) :
    Between (turn s ds) ∧ (stepsLeft (turn s ds) < stepsLeft s ∨ AtRest (turn s ds)) := by
  obtain ⟨h₁, h₂, -⟩ := device_run h ds
  refine ⟨h₁.step .loop, ?_⟩
  rcases storeLoop_progress 6 _ h₁.resting with hrounds | ⟨hsame, hrest | ⟨hwait, hfc⟩⟩
  · exact Or.inl (h₂ ▸ (h₁.rounds_lt hrounds hadv).2)
  · refine Or.inr ?_
    change AtRest (storeLoop 7 _).1
    rw [hsame]
    exact hrest
  · rw [hrep hwait] at hfc
    cases hfc

/-- Nothing is done at rest. -/
theorem AtRest.no_round (h : AtRest s) : ¬ Round s s' := by
  have hstate : ∀ st : State, st ≠ .idle → s.state ≠ st := fun st hne hst => hne (hst ▸ h.state)
  intro hround
  cases hround with
  | init0 hs => exact hstate _ State.noConfusion hs
  | slot _ hflag => exact h.config hflag
  | full _ hflag => exact h.config hflag
  | part p _ _ hflag => exact Bool.false_ne_true ((h.parts p).symm.trans hflag)
  | go hs => exact hstate _ State.noConfusion hs
  | erase hs => exact hstate _ State.noConfusion hs
  | rewrite hs => exact hstate _ State.noConfusion hs
  | saved hs => exact hstate _ State.noConfusion hs

theorem AtRest.turn_eq (h : AtRest s) (hs : Sound s) (ds : List SdEvent) : turn s ds = s := by
  have hsd := (hs.stage.free h.state).1
  have hrun : Runs.run sdEvent s.log ds = s.log := by
    induction ds with
    | nil => rfl
    | cons d ds ih => rw [Runs.run_cons, sdEvent_of_none hsd, ih]
  rw [turn, hrun]
  rcases storeLoop_progress 6 s hs.stage.resting with hrounds | ⟨hsame, -⟩
  · obtain ⟨s₁, hround, -⟩ := Relation.TransGen.head'_iff.1 hrounds
    exact absurd hround h.no_round
  · exact hsame

theorem turn_advances (h : Between s) (ds : List SdEvent) :
    s.log.advances ≤ (turn s ds).log.advances := by
  obtain ⟨h₁, -, h₃⟩ := device_run h ds
  exact h₃ ▸ rounds_advances (storeLoop_rounds 7 _ h₁.resting)

theorem turns_advances (bs : List (List SdEvent)) : ∀ {s : Store}, Between s →
    s.log.advances ≤ (Runs.run turn s bs).log.advances := by
  induction bs with
  | nil => exact fun _ => le_rfl
  | cons b bs ih =>
    intro s h
    exact (turn_advances h b).trans (ih ((device_run h b).1.step .loop))

/-- **After as many turns as there are rounds left** there is nothing to do. -/
theorem Between.atRest (bs : List (List SdEvent)) : ∀ {s : Store}, Between s →
    Runs.Each turn Reports s bs → stepsLeft s ≤ bs.length →
    (Runs.run turn s bs).log.advances < 2 ^ 26 - 1 → AtRest (Runs.run turn s bs) := by
  induction bs with
  | nil => exact fun h _ hlen _ => atRest_of_stepsLeft h.resting (Nat.le_zero.1 hlen)
  | cons b bs ih =>
    intro s h hrep hlen hadv
    obtain ⟨hrep, hrest⟩ := hrep
    have hnext := (device_run h b).1.step .loop
    have hlt := (turns_advances bs hnext).trans_lt hadv
    obtain ⟨hturn, hless | hstill⟩ := h.turn_lt hrep hlt
    · rw [List.length_cons] at hlen
      exact ih hturn hrest (by omega) hadv
    · have hstay : ∀ bs : List (List SdEvent), Runs.run turn (turn s b) bs = turn s b := by
        intro bs
        induction bs with
        | nil => rfl
        | cons b' bs ih => rw [Runs.run_cons, hstill.turn_eq (hturn.sound hlt), ih]
      rw [Runs.run_cons, hstay]
      exact hstill

end Passes

/-! ## What is served -/

section Served

variable {s s' : Store} {old : List (List Word)} {calls : List Rec}

/-- Turns keep the account of the calls. -/
theorem Answering.turn (h : Answering old ⟨s, calls⟩) (ds : List SdEvent) :
    Answering old ⟨App.turn s ds, calls⟩ := by
  have hnil : calls ++ (callOf .loop).toList = calls := List.append_nil _
  have hrun : Answering old ⟨{ s with log := Runs.run sdEvent s.log ds }, calls⟩ := by
    induction ds generalizing s with
    | nil => exact h
    | cons d ds ih =>
      have hstep := h.step (e := .device d) trivial
      rw [callStep, show callOf (.device d) = callOf .loop from rfl, hnil] at hstep
      exact ih hstep
  have hloop := hrun.loop
  rw [callStep, hnil] at hloop
  exact hloop

theorem Answering.turns (bs : List (List SdEvent)) : ∀ {s : Store}, Answering old ⟨s, calls⟩ →
    Answering old ⟨Runs.run App.turn s bs, calls⟩ := by
  induction bs with
  | nil => exact fun h => h
  | cons b bs ih => exact fun h => ih (h.turn b)

/-- The calls that wait. -/
def waitingCalls (s : Store) : List Rec :=
  (parts.filter fun p => p.flag s.opFlag).map fun p => p.record s.log.staging.su

theorem waitingCalls_words (s : Store) :
    (waitingCalls s).map Rec.words = waitingWords s.opFlag s.log.staging.su := by
  rw [waitingCalls, waitingWords, List.map_map]
  refine List.map_congr_left fun p _ => ?_
  obtain ⟨h₁, h₂⟩ := p.record_eq s.log.staging.su
  rw [Function.comp_apply, Rec.words, h₁, h₂, Part.words]

theorem answering_here (h : Between s) (hstate : s.state ≠ .init0) :
    Answering s.log.words ⟨s, waitingCalls s⟩ := by
  refine ⟨h, hstate, fun _ => ⟨⟨[], (List.append_nil _).symm, ?_⟩, ?_⟩⟩
  · rw [waitingCalls_words]
    exact .refl _
  · have hlen : s.log.statuses.length ≤ s.log.words.length := by
      simp [Log.statuses, Log.words]
    unfold SettledFrom
    rw [List.drop_eq_nil_of_le hlen]
    exact fun _ h => absurd h List.not_mem_nil

theorem AtRest.waitingWords_eq (h : AtRest s) (u : Union) : waitingWords s.opFlag u = [] := by
  have hnone : (App.parts.filter fun p => p.flag s.opFlag) = [] :=
    List.filter_eq_nil_iff.2 fun p _ => by
      rw [h.parts p]
      exact Bool.false_ne_true
  rw [waitingWords, hnone, List.map_nil]

/-- At rest each call has its record. -/
theorem Served.produced_atRest (h : Served old calls s) (hrest : AtRest s) :
    ∃ new, s.log.words = old ++ new ∧ (new.filter IsPart).Perm (calls.map Rec.words) := by
  obtain ⟨new, hnew, hperm⟩ := h.produced
  rw [hrest.waitingWords_eq, List.append_nil] at hperm
  exact ⟨new, hnew, hperm⟩

/-- And it is completed. -/
theorem Served.settled_atRest (h : Served old calls s) (hrest : AtRest s) :
    ∀ r ∈ s.log.records.drop old.length, r.status = .completed := by
  intro r hr
  have hstatus : r.status ∈ s.log.statuses.drop old.length := by
    rw [Log.statuses, ← List.map_drop]
    exact List.mem_map_of_mem hr
  refine (h.settled _ hstatus).resolve_right fun hbusy => ?_
  rw [hrest.state] at hbusy
  cases hbusy.2

/-- **What waits is served.** From any state reached after start up, when the
soft device reports each operation, however it fares, then after 23 passes
there is nothing left to do. Each request that waited has produced a record
with its fields, and no others have, and all records since are completed. -/
theorem served {flash : ℕ → Word} (h : Erased flash) (es : List SystemEvent)
    (bs : List (List SdEvent))
    (hstate : (Runs.run systemStep (Store.first flash) es).state ≠ .init0)
    (hrep : Runs.Each turn Reports (Runs.run systemStep (Store.first flash) es) bs)
    (hlen : 23 ≤ bs.length)
    (hadv : (Runs.run turn (Runs.run systemStep (Store.first flash) es) bs).log.advances <
      2 ^ 26 - 1) :
    let s := Runs.run systemStep (Store.first flash) es
    let s' := Runs.run turn s bs
    AtRest s' ∧ ∃ new, s'.log.words = s.log.words ++ new ∧
      (new.filter IsPart).Perm (waitingWords s.opFlag s.log.staging.su) ∧
      ∀ r ∈ s'.log.records.drop s.log.records.length, r.status = .completed := by
  intro s s'
  have hs := sound_run h es
  have hrest : AtRest s' := hs.atRest bs hrep ((stepsLeft_le s).trans hlen) hadv
  have hserved : Served s.log.words (waitingCalls s) s' :=
    ((answering_here hs hstate).turns bs).served hadv
  obtain ⟨new, hnew, hperm⟩ := hserved.produced_atRest hrest
  rw [waitingCalls_words] at hperm
  have hlength : s.log.words.length = s.log.records.length := List.length_map _
  exact ⟨hrest, new, hnew, hperm, hlength ▸ hserved.settled_atRest hrest⟩

/-- A header is asked for after start up. -/
def headerAsked : List SystemEvent := [.event .loop, .event (.info ⟨1#32, 1#32, 0#32, 64#32⟩)]

/-- The soft device does a write in the second of the turns. -/
def headerTurns : List (List SdEvent) :=
  [[], List.replicate 40 .work ++ [.success]] ++ List.replicate 21 []

set_option maxRecDepth 100000 in
theorem served_header :
    let s := Runs.run systemStep (Store.first fun _ => erasedWord) headerAsked
    let s' := Runs.run turn s headerTurns
    AtRest s' ∧ ∃ new, s'.log.words = s.log.words ++ new ∧
      (new.filter IsPart).Perm (waitingWords s.opFlag s.log.staging.su) ∧
      ∀ r ∈ s'.log.records.drop s.log.records.length, r.status = .completed :=
  served (fun _ _ _ => rfl) headerAsked headerTurns (by decide) (by decide) (by decide)
    (by decide)

end Served

end App

end AntTracer
