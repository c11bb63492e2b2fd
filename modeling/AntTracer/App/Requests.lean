import AntTracer.App.Saves

/-!
# Requests of a software update

The three kinds of requests are parked in one union, each with a flag of its
own. As long as a request finds its flag clear, and leaves the records the
others ask for alone, each call is answered with one record that carries its
fields (`requests_served`). But nothing keeps a caller from filling the union
while it is in use (`not_requests_served`).
-/

namespace AntTracer

namespace App

/-! ## What is asked for -/

/-- The record a part of the union asks for. -/
def Part.words (p : Part) (u : Union) : List Word := recordWords p.type (p.fields u) .init

/-- The parts. -/
def parts : List Part := [.hdr, .data, .exec]

/-- The flags with that of a part. -/
def Part.set (f : OpFlags) : Part → OpFlags
  | .hdr => { f with swUpdate := true }
  | .data => { f with swChunk := true }
  | .exec => { f with swExec := true }

/-- The records that wait for `StoreSuperLoop`. -/
def waitingWords (f : OpFlags) (u : Union) : List (List Word) :=
  (parts.filter fun p => p.flag f).map fun p => p.words u

/-- A record of a software update. -/
def IsPart (ws : List Word) : Prop :=
  typeOf ws = rtSuHdr ∨ typeOf ws = rtSuData ∨ typeOf ws = rtSuExec

instance : DecidablePred IsPart := fun _ => inferInstanceAs (Decidable (_ ∨ _))

theorem filter_isPart {ws : List Word} (h : IsPart ws) : [ws].filter IsPart = [ws] :=
  List.filter_cons_of_pos (decide_eq_true h)

theorem filter_not_isPart {ws : List Word} (h : ¬ IsPart ws) : [ws].filter IsPart = [] :=
  List.filter_cons_of_neg (by simpa using h)

section Parts

variable {p : Part} {f : OpFlags} {u u' : Union}

theorem filter_clear (h : p.flag f = true) :
    (parts.filter fun q => q.flag f).Perm (p :: parts.filter fun q => q.flag (p.clear f)) := by
  rcases f with ⟨c, a, b, d⟩
  cases p <;> cases a <;> cases b <;> cases d <;> revert h <;> simp only [Part.flag, Part.clear] <;>
    decide

theorem filter_set (h : p.flag f = false) :
    (parts.filter fun q => q.flag (p.set f)).Perm (p :: parts.filter fun q => q.flag f) := by
  rcases f with ⟨c, a, b, d⟩
  cases p <;> cases a <;> cases b <;> cases d <;> revert h <;> simp only [Part.flag, Part.set] <;>
    decide

theorem Part.isPart (p : Part) (u : Union) (b : Buffer) :
    IsPart (recordWords p.type (p.fields u) b) := by
  obtain ⟨h₁, h₂⟩ := p.record_eq u
  have hty := (p.record u).typeOf_words b
  rw [h₁, h₂] at hty
  unfold IsPart
  rw [hty]
  cases p
  · exact Or.inl rfl
  · exact Or.inr (Or.inl rfl)
  · exact Or.inr (Or.inr rfl)

theorem not_isPart_config (c : Config) (b : Buffer) :
    ¬ IsPart (recordWords rtConfig (configFields c) b) := by
  have hty : typeOf (recordWords rtConfig (configFields c) b) = rtConfig :=
    (Rec.config c).typeOf_words b
  unfold IsPart
  rw [hty]
  decide

/-- **A part served.** -/
theorem waitingWords_clear (h : p.flag f = true) :
    (waitingWords f u).Perm (p.words u :: waitingWords (p.clear f) u) :=
  (filter_clear h).map _

/-- **A part asked for.** -/
theorem waitingWords_set (h : p.flag f = false)
    (hsame : ∀ q : Part, q.flag f = true → q.words u' = q.words u) :
    (waitingWords (p.set f) u').Perm (p.words u' :: waitingWords f u) := by
  refine ((filter_set h).map fun q => q.words u').trans ?_
  rw [List.map_cons, waitingWords]
  refine List.Perm.of_eq (congrArg _ (List.map_congr_left fun q hq => ?_))
  exact hsame q (List.mem_filter.1 hq).2

end Parts

/-! ## The history of the log -/

/-- What became of the records. -/
def Log.statuses (l : Log) : List Status := l.records.map Appended.status

section Statuses

variable {l : Log} {n : ℕ}

/-- From the record `n` on, all are completed but for the one `wrGo` is at. -/
def SettledFrom (n : ℕ) (l : Log) (busy : Prop) : Prop :=
  ∀ st ∈ l.statuses.drop n, st = .completed ∨ (st = .writing ∧ busy)

theorem settledFrom_recorded {rs : List Appended} {r : Log × Bool} (hr : Recorded rs r)
    (h : ∀ st ∈ (rs.map Appended.status).drop n, st = .completed ∨ st = .writing) :
    SettledFrom n r.1 (r.2 = true) := by
  unfold SettledFrom Log.statuses
  rcases hr with ⟨hr, hrec⟩ | ⟨hr, hrec⟩
  · have hsame : r.1.records.map Appended.status = rs.map Appended.status := by
      rcases hrec with hrec | ⟨a, hrec⟩
      · rw [hrec]
      · rw [hrec, noteStart, List.map_map]
        refine List.map_congr_left fun x _ => ?_
        simp only [Function.comp]
        split <;> rfl
    rw [hsame]
    exact fun st hst => (h st hst).imp id fun hst => ⟨hst, hr⟩
  · have hmap : r.1.records.map Appended.status =
        (rs.map Appended.status).map fun st => if st = .writing then .completed else st := by
      rw [hrec, noteStatus, List.map_map, List.map_map]
      refine List.map_congr_left fun x _ => ?_
      simp only [Function.comp]
      split <;> rfl
    rw [hmap, ← List.map_drop]
    intro st hst
    obtain ⟨st₀, hst₀, rfl⟩ := List.mem_map.1 hst
    refine Or.inl ?_
    rcases h st₀ hst₀ with rfl | rfl <;> rfl

end Statuses

/-! ## The invariant -/

/-- The records since the start, and those asked for, are the records of the
calls. -/
structure Served (old : List (List Word)) (calls : List Rec) (s : Store) : Prop where
  produced : ∃ new, s.log.words = old ++ new ∧
    (new.filter IsPart ++ waitingWords s.opFlag s.log.staging.su).Perm (calls.map Rec.words)
  settled : SettledFrom old.length s.log (s.state = .writing)

section Served

variable {old : List (List Word)} {calls : List Rec} {s s' : Store}

theorem Served.congr (h : Served old calls s) (hwords : s'.log.words = s.log.words)
    (hstatuses : s'.log.statuses = s.log.statuses) (hsu : s'.log.staging.su = s.log.staging.su)
    (hflags : ∀ p : Part, p.flag s'.opFlag = p.flag s.opFlag)
    (hstate : s.state = .writing → s'.state = .writing) : Served old calls s' := by
  refine ⟨?_, ?_⟩
  · rw [hwords, hsu, waitingWords]
    simp only [hflags]
    exact h.produced
  · unfold SettledFrom
    rw [hstatuses]
    exact fun st hst => (h.settled st hst).imp id fun hst => ⟨hst.1, hstate hst.2⟩

/-- **A record handed to `wrGo`**, while none is being written. -/
theorem Served.append (h : Served old calls s) (hidle : s.state = .idle) {ws : List Word}
    {r : Log × Bool} {s₀ : Store} (hr : Recorded (s.log.records ++ [⟨ws, none, .writing, false⟩]) r)
    (hw : r.1.words = s.log.words ++ [ws])
    (hperm : ([ws].filter IsPart ++ waitingWords s₀.opFlag r.1.staging.su).Perm
      (waitingWords s.opFlag s.log.staging.su)) : Served old calls (handed r s₀) := by
  obtain ⟨new, hwords, hnew⟩ := h.produced
  refine ⟨⟨new ++ [ws], ?_, ?_⟩, ?_⟩
  · rw [← List.append_assoc, ← hwords]
    exact hw
  · rw [List.filter_append, List.append_assoc]
    exact (hperm.append_left _).trans hnew
  · have hlen : old.length ≤ (s.log.records.map Appended.status).length := by
      have hle := congrArg List.length hwords
      rw [Log.words, List.length_map, List.length_append] at hle
      rw [List.length_map]
      omega
    have hset : SettledFrom old.length r.1 (r.2 = true) := by
      refine settledFrom_recorded hr fun st hst => ?_
      rw [List.map_append, List.drop_append_of_le_length hlen] at hst
      rcases List.mem_append.1 hst with hst | hst
      · refine Or.inl ((h.settled st hst).resolve_right fun hbusy => ?_)
        rw [hidle] at hbusy
        cases hbusy.2
      · exact Or.inr (List.mem_singleton.1 hst)
    exact fun st hst => (hset st hst).imp id fun hst => ⟨hst.1, if_pos hst.2⟩

/-- **A round** serves a part, or none. -/
theorem Served.round (h : Served old calls s) (hsound : Sound s) (hround : Round s s')
    (hinit : s.state ≠ .init0) : Served old calls s' := by
  cases hround with
  | init0 hs => exact absurd hs hinit
  | slot hs => exact h.congr rfl rfl rfl (fun p => by cases p <;> rfl) (by rw [hs]; nofun)
  | full hs hflag hfull =>
    obtain ⟨-, t, spare, hidle⟩ : Free (copyConfig (takeConfig s)).log :=
      (hsound.stage.free hs).copyConfig
    have hrec : IsRecord (recordWords rtConfig
        (configFields (copyConfig (takeConfig s)).log.staging.config)
          (copyConfig (takeConfig s)).log.buf) :=
      (Rec.config (copyConfig (takeConfig s)).log.staging.config).isRecord _
    have hr := recorded_append hidle.state hrec
    obtain ⟨-, hstaging, -, hw⟩ := appendRecord_kept rtConfig
      (configFields (copyConfig (takeConfig s)).log.staging.config) (copyConfig (takeConfig s)).log
    refine h.append hs hr hw ?_
    rw [filter_not_isPart (not_isPart_config _ _), List.nil_append, hstaging]
    exact .refl _
  | part p st hs hflag =>
    obtain ⟨-, t, spare, hidle⟩ := hsound.stage.free hs
    obtain ⟨-, hstaging, -, hw⟩ := appendRecord_kept p.type (p.fields s.log.staging.su) s.log
    refine h.append hs (recorded_append hidle.state (p.isRecord _ _)) hw ?_
    rw [filter_isPart (p.isPart _ _), hstaging, recordWords_congr _ _ _ .init]
    exact (waitingWords_clear hflag).symm
  | go hs hfc =>
    obtain ⟨-, hstaging, -, hw⟩ := wrGo_kept s.log
    refine ⟨?_, ?_⟩
    · change ∃ new, (wrGo s.log).1.words = old ++ new ∧
        (new.filter IsPart ++ waitingWords s.opFlag (wrGo s.log).1.staging.su).Perm _
      rw [hw, hstaging]
      exact h.produced
    · have hset : SettledFrom old.length (wrGo s.log).1 ((wrGo s.log).2 = true) :=
        settledFrom_recorded (recorded_wrGo (Or.inr (hsound.stage.writing hs).1.wrState))
          fun st hst =>
          (h.settled st hst).imp id And.left
      exact fun st hst => (hset st hst).imp id fun hst => ⟨hst.1, if_pos hst.2⟩
  | erase hs => exact h.congr rfl rfl rfl (fun p => by cases p <;> rfl) (by rw [hs]; nofun)
  | rewrite hs => exact h.congr rfl rfl rfl (fun p => by cases p <;> rfl) (by rw [hs]; nofun)
  | saved hs => exact h.congr rfl rfl rfl (fun p => by cases p <;> rfl) (by rw [hs]; nofun)

/-- **A call** that finds its flag clear, and leaves the other parts alone. -/
theorem Served.call (h : Served old calls s) {p : Part} (hflag : p.flag s.opFlag = false)
    {f : Union → Union}
    (hsame : ∀ q : Part, q.flag s.opFlag = true →
    q.words (f s.log.staging.su) = q.words s.log.staging.su)
    {c : Rec} (hc : p.words (f s.log.staging.su) = c.words) :
    Served old (calls ++ [c]) { setUnion f s with opFlag := p.set s.opFlag } := by
  obtain ⟨new, hwords, hperm⟩ := h.produced
  refine ⟨⟨new, hwords, ?_⟩, h.settled⟩
  have hset := waitingWords_set hflag hsame
  rw [hc] at hset
  rw [List.map_append, List.map_cons, List.map_nil]
  refine (hset.append_left _).trans (List.perm_middle.trans ?_)
  exact (hperm.cons _).trans (List.perm_append_singleton _ _).symm

end Served

/-! ## Runs -/

/-- The record a call asks for. -/
def callOf : StoreEvent → Option Rec
  | .info sui => some (.header sui)
  | .chunk sud => if h : sud.data.length = oqSuChunk then some (.chunk sud h) else none
  | .exec sux => some (.execute sux)
  | _ => none

/-- The store, and the calls so far. -/
structure Calling where
  store : Store
  calls : List Rec

/-- A step of the store, noting the calls. -/
def callStep (t : Calling) (e : StoreEvent) : Calling :=
  ⟨storeStep t.store e, t.calls ++ (callOf e).toList⟩

/-- A request finds its flag clear, and leaves the records alone that others
wait for. -/
def Alone (p : Part) (f : Union → Union) (s : Store) : Prop :=
  p.flag s.opFlag = false ∧
    ∀ q ∈ parts, q.flag s.opFlag = true → q.words (f s.log.staging.su) = q.words s.log.staging.su

instance (p : Part) (f : Union → Union) (s : Store) : Decidable (Alone p f s) :=
  inferInstanceAs (Decidable (_ ∧ _))

/-- **Requests do not meet in the union**, and a chunk is a whole one. -/
def Separate (t : Calling) : StoreEvent → Prop
  | .info sui => Alone .hdr (fun u => u.setSui sui) t.store
  | .chunk sud => sud.data.length = oqSuChunk ∧ Alone .data (fun u => u.setSud sud) t.store
  | .exec sux => Alone .exec (fun u => u.setSux sux) t.store
  | _ => True

instance (t : Calling) : ∀ e : StoreEvent, Decidable (Separate t e)
  | .info sui => inferInstanceAs (Decidable (Alone .hdr (fun u => u.setSui sui) t.store))
  | .chunk _ => inferInstanceAs (Decidable (_ ∧ _))
  | .exec sux => inferInstanceAs (Decidable (Alone .exec (fun u => u.setSux sux) t.store))
  | .loop | .device _ | .tick _ | .change _ | .factory | .save _ => .isTrue trivial

/-- **What holds between the events.** -/
structure Answering (old : List (List Word)) (t : Calling) : Prop where
  between : Between t.store
  state : t.store.state ≠ .init0
  served : t.store.log.advances < 2 ^ 26 - 1 → Served old t.calls t.store

theorem Part.mem_parts (p : Part) : p ∈ parts := by cases p <;> decide

theorem Round.ne_init0 {s s' : Store} (hround : Round s s') (hrest : Resting s)
    (hs : s.state ≠ .init0) : s'.state ≠ .init0 := by
  cases hround with
  | init0 h => exact absurd h hs
  | slot | erase | rewrite | saved => exact nofun
  | full => exact fun h => not_waits_handed (Or.inr rfl) (Or.inl h)
  | part => exact fun h => not_waits_handed (Or.inl rfl) (Or.inl h)
  | go h => exact fun h' => not_waits_handed (hrest.savedState h) (Or.inl h')

section Runs

variable {old : List (List Word)} {t : Calling}

theorem Answering.loop (h : Answering old t) : Answering old (callStep t .loop) := by
  have hcalls : t.calls ++ (callOf .loop).toList = t.calls := List.append_nil _
  have hround : ∀ s s' : Store, Answering old ⟨s, t.calls⟩ → Round s s' →
    Answering old ⟨s', t.calls⟩ :=
    fun s s' h hround => by
      refine ⟨h.between.round hround, hround.ne_init0 h.between.resting h.state, fun hadv => ?_⟩
      have hlt := hround.advances_le.trans_lt hadv
      exact (h.served hlt).round (h.between.sound hlt) hround h.state
  rw [callStep, hcalls]
  exact @storeSuperLoop_inv (fun s => Answering old ⟨s, t.calls⟩)
    (fun s h => h.between.resting) hround _ h

/-- Other events than calls and passes. -/
theorem Served.event {calls : List Rec} {s s' : Store} (h : Served old calls s)
    (hwords : s'.log.words = s.log.words) (hstatuses : s'.log.statuses = s.log.statuses)
    (hsu : s'.log.staging.su = s.log.staging.su)
    (hflags : ∀ p : Part, p.flag s'.opFlag = p.flag s.opFlag)
    (hstate : s'.state = s.state) : Served old (calls ++ []) s' := by
  rw [List.append_nil]
  exact h.congr hwords hstatuses hsu hflags hstate.trans

/-- **Every event keeps the account of the calls.** -/
theorem Answering.step (h : Answering old t) {e : StoreEvent} (hsep : Separate t e) :
    Answering old (callStep t e) := by
  by_cases he : e = .loop
  · subst he
    exact h.loop
  obtain ⟨hsame, -⟩ := storeStep_history t.store he
  have hstate : (storeStep t.store e).state = t.store.state := by
    cases e with
    | loop => exact absurd rfl he
    | device | tick | change | factory | save | info | chunk | exec => rfl
  refine ⟨h.between.step e, fun hs => h.state (hstate.symm.trans hs), fun hadv => ?_⟩
  have hserved := h.served (hsame ▸ hadv)
  cases e with
  | loop => exact absurd rfl he
  | device e =>
    obtain ⟨flash', sd', fc, tries, rs', written', refused', hbeside⟩ :=
      sdEvent_beside t.store.log e
    have hstaging : (sdEvent t.store.log e).staging = t.store.log.staging := by rw [hbeside]
    exact hserved.event (sdEvent_words _ e) (sdEvent_map Appended.status (fun _ => rfl) _ e)
      (congrArg Staging.su hstaging) (fun p => by cases p <;> rfl) rfl
  | tick | change | factory | save =>
    exact hserved.event rfl rfl rfl (fun p => by cases p <;> rfl) rfl
  | info sui =>
    refine hserved.call (p := .hdr) hsep.1 (fun q => hsep.2 q q.mem_parts) ?_
    rfl
  | chunk sud =>
    obtain ⟨hlen, hflag, hother⟩ := hsep
    have hcall : callOf (.chunk sud) = some (.chunk sud hlen) := dif_pos hlen
    change Served old (t.calls ++ (callOf (.chunk sud)).toList) _
    rw [hcall]
    refine hserved.call (p := .data) hflag (fun q => hother q q.mem_parts) ?_
    change recordWords rtSuData (suDataFields (t.store.log.staging.su.setSud sud).sud) .init = _
    rw [Union.sud_setSud _ hlen]
    rfl
  | exec sux =>
    refine hserved.call (p := .exec) hsep.1 (fun q => hsep.2 q q.mem_parts) ?_
    rfl

/-- The store started up once more, and no calls so far. -/
def Calling.start (s : Store) : Calling := ⟨s.boot, []⟩

theorem boot_flags (s : Store) (p : Part) : p.flag s.boot.opFlag = false := by
  obtain ⟨b, hinit⟩ := init0_eq (startUp s)
  obtain ⟨timer, flag, saving, requests, hback⟩ :=
    callbacks_eq (configsIn (rawRecords storeRegion (startUp s).log.flash)) (startUp s)
  change p.flag (App.init0 (startUp s)).opFlag = false
  rw [hinit, hback]
  cases p <;> rfl

theorem answering_start {s : Store} (h : Between s) :
    Answering s.boot.log.words (Calling.start s) := by
  have hboot : Between s.boot := (h.systemStep .reboot).loop
  have hstate : (Calling.start s).store.state ≠ .init0 := State.noConfusion
  refine ⟨hboot, hstate, fun _ => ⟨⟨[], (List.append_nil _).symm, ?_⟩, ?_⟩⟩
  · have hnone : (parts.filter fun p => p.flag s.boot.opFlag) = [] :=
      List.filter_eq_nil_iff.2 fun p _ => by rw [boot_flags]; exact Bool.false_ne_true
    change ([] ++ waitingWords s.boot.opFlag s.boot.log.staging.su).Perm []
    rw [waitingWords, hnone]
    exact .refl _
  · have hlen : s.boot.log.statuses.length ≤ s.boot.log.words.length := by
      simp [Log.statuses, Log.words]
    unfold SettledFrom
    rw [Calling.start, List.drop_eq_nil_of_le hlen]
    exact fun _ h => absurd h List.not_mem_nil

/-- **Nothing is mixed up or lost** of the calls, in the records from `n`
on. -/
structure Answered (n : ℕ) (t : Calling) : Prop where
  /-- a record carries the fields of a call -/
  carries : ∀ r ∈ t.store.log.records.drop n, IsPart r.words → ∃ c ∈ t.calls, r.words = c.words
  /-- and each call has produced one, when there are none pending -/
  answered : t.store.state = .idle → t.store.opFlag.su = false →
    (((t.store.log.records.drop n).filter fun r => r.status = .completed ∧ IsPart r.words).map
      Appended.words).Perm (t.calls.map Rec.words)

theorem Served.answered (h : Served old t.calls t.store) : Answered old.length t := by
  obtain ⟨new, hwords, hperm⟩ := h.produced
  have hdrop : (t.store.log.records.drop old.length).map Appended.words = new := by
    have := congrArg (List.drop old.length) hwords
    rw [List.drop_left, Log.words, ← List.map_drop] at this
    exact this
  refine ⟨fun r hr hpart => ?_, fun hidle hsu => ?_⟩
  · have hmem : r.words ∈ new.filter IsPart :=
      List.mem_filter.2 ⟨hdrop ▸ List.mem_map_of_mem hr, decide_eq_true hpart⟩
    obtain ⟨c, hc, heq⟩ := List.mem_map.1 (hperm.subset (List.mem_append_left _ hmem))
    exact ⟨c, hc, heq.symm⟩
  · -- all are completed, and none is pending
    have hdone : ∀ r ∈ t.store.log.records.drop old.length, r.status = .completed := by
      intro r hr
      have hst : r.status ∈ t.store.log.statuses.drop old.length := by
        rw [Log.statuses, ← List.map_drop]
        exact List.mem_map_of_mem hr
      refine (h.settled _ hst).resolve_right fun hbusy => ?_
      rw [hidle] at hbusy
      cases hbusy.2
    have hfilter : (t.store.log.records.drop old.length).filter
        (fun r => r.status = .completed ∧ IsPart r.words) =
          (t.store.log.records.drop old.length).filter (fun r => IsPart r.words) :=
      List.filter_congr fun r hr => by simp only [hdone r hr, true_and]
    have hnone : (parts.filter fun p => p.flag t.store.opFlag) = [] :=
      List.filter_eq_nil_iff.2 fun p _ => by
        rw [OpFlags.su, Bool.or_eq_false_iff, Bool.or_eq_false_iff] at hsu
        obtain ⟨⟨h₁, h₂⟩, h₃⟩ := hsu
        cases p
        · rw [Part.flag, h₁]
          exact Bool.false_ne_true
        · rw [Part.flag, h₂]
          exact Bool.false_ne_true
        · rw [Part.flag, h₃]
          exact Bool.false_ne_true
    rw [waitingWords, hnone, List.map_nil, List.append_nil] at hperm
    rw [hfilter]
    refine List.Perm.trans (.of_eq ?_) hperm
    rw [← hdrop, List.filter_map]
    rfl

/-- **Each call is answered by a record of its own**, from any start up on. -/
theorem requests_served {flash : ℕ → Word} (h : Erased flash) (es₀ : List SystemEvent)
    (es : List StoreEvent)
    (hsep : Runs.Each callStep Separate
    (Calling.start (Runs.run systemStep (Store.first flash) es₀)) es)
    (hadv : (Runs.run callStep (Calling.start (Runs.run systemStep (Store.first flash) es₀))
    es).store.log.advances
      < 2 ^ 26 - 1) :
    Answered (Runs.run systemStep (Store.first flash) es₀).boot.log.records.length
      (Runs.run callStep (Calling.start (Runs.run systemStep (Store.first flash) es₀)) es) := by
  have hrun := Runs.inv_of_each (fun t e (ht : Answering _ t) hc => ht.step hc)
    (answering_start (sound_run h es₀)) hsep
  have hserved := (hrun.served hadv).answered
  rwa [Log.words, List.length_map] at hserved

/-- The soft device does a write, and a pass follows. -/
def writeEvents : List StoreEvent := List.replicate 32 (.device .work) ++ [.device .success, .loop]

/-- A header and a request to execute, one after the other, and then another
header. -/
def apartRun : List StoreEvent :=
  [.info ⟨1#32, 1#32, 0#32, 64#32⟩, .loop] ++ writeEvents ++ [.exec ⟨2#32, 1#32⟩, .loop] ++
    writeEvents ++
    [.info ⟨3#32, 2#32, 0#32, 64#32⟩, .loop] ++ writeEvents

set_option maxRecDepth 100000 in
theorem requests_served_apart :
    Answered 0 (Runs.run callStep (Calling.start (Store.first fun _ => erasedWord)) apartRun) :=
  requests_served (fun _ _ _ => rfl) [] apartRun (by decide) (by decide)

/-- A header and a request to execute at once. -/
def togetherRun : List StoreEvent :=
  [.info ⟨1#32, 1#32, 0#32, 64#32⟩, .exec ⟨2#32, 7#32⟩, .loop] ++ writeEvents ++ writeEvents

set_option maxRecDepth 100000 in
/-- **The header carries the fields of the other request.** -/
theorem not_requests_served :
    ∃ r ∈ (Runs.run callStep (Calling.start (Store.first fun _ => erasedWord))
      togetherRun).store.log.records, IsPart r.words ∧ r.status = .completed ∧
        ∀ c ∈ (Runs.run callStep (Calling.start (Store.first fun _ => erasedWord))
          togetherRun).calls, r.words ≠ c.words := by
  refine ⟨_, List.mem_of_getElem? (i := 0) rfl, ?_, ?_, ?_⟩ <;> decide

end Runs

end App

end AntTracer
