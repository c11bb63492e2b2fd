import AntTracer.Rtt.Down

/-!
# What the host types

The target reads channel 0 a few bytes at a time, or waits for a key. What it
is given is what the host has typed, in order and each byte once, and a byte
that the host has made visible before a read is not overlooked by it.
-/

namespace AntTracer

namespace Rtt

open Shared Shared.Code Circular Stores Relation

/-- Reads one after another, each of at most so many bytes. -/
def readEach : List ℕ → Code Channel (List (List Byte))
  | [] => pure []
  | size :: sizes => do
    let d ← readNoLock size
    let ds ← readEach sizes
    pure (d :: ds)

/-- `DebugGetCharBlocking` for a number of rounds, or `DebugGetChar`, whose
`char` is unsigned as ARM has it. -/
def getChar (rounds : ℕ) (wait : Bool) : Code Channel (Option ℤ) :=
  if wait then waitKey rounds
  else do
    let r ← getKey
    pure (some r)

/-- One or the other, over and over. There is no result while one waits. -/
def keyEach (rounds : ℕ) : List Bool → Code Channel (Option (List ℤ))
  | [] => pure (some [])
  | wait :: waits => do
    let r ← getChar rounds wait
    match r with
    | none => pure none
    | some r => do
      let rs ← keyEach rounds waits
      pure (rs.map (r :: ·))

/-- `SEGGER_RTT_HasKey`, `SEGGER_RTT_HasData`, and then a key. -/
def checkThenGet : Code Channel (Bool × ℕ × ℤ) := do
  let b ← hasKey
  let v ← hasData
  let r ← getKey
  pure (b, v, r)

/-- The keys among the results. -/
def keys (rs : List ℤ) : List Byte :=
  rs.filterMap fun r => if r < 0 then none else some (BitVec.ofInt 8 r)

/-- The host, any number of steps. -/
abbrev DownHosts : Channel → Channel → Prop := ReflTransGen DownHost

/-- The host looks, types the next letter if there is room, and stores how far
it is. -/
def Channel.typeNext (s : Channel) : Channel :=
  let s := { s with seen := s.ring.rdOff }
  let b : Byte := BitVec.ofNat 8 (65 + s.log.length)
  if next s.ring.sizeOfBuffer s.cursor = s.seen then s
  else Channel.setWrOff (next s.ring.sizeOfBuffer s.cursor) { s.put s.cursor b with
    cursor := next s.ring.sizeOfBuffer s.cursor
    log := s.log ++ [b] }

theorem downHosts_typeNext (s : Channel) : DownHosts s s.typeNext := by
  have hlook : DownHost s { s with seen := s.ring.rdOff } := .look
  rw [Channel.typeNext]
  dsimp only
  split
  · exact .single hlook
  · rename_i hne
    exact .head hlook (.head (.put _ hne) (.single .store))

theorem runs_typeNext {α : Type} (c : Code Channel α) (s : Channel) :
    Runs DownHosts (c, s) (pure (c.among Channel.typeNext s).1, (c.among Channel.typeNext s).2) :=
  runs_among (fun s _ => downHosts_typeNext s) finds_trivial

variable {s t u : Channel} {d : List Byte} {rounds : ℕ} {R : Channel → Channel → Prop}
  {I : Channel → Prop}

theorem key_toNat (c : Byte) : keys [(c.toNat : ℤ)] = [c] := by
  have hnonneg : ¬ (c.toNat : ℤ) < 0 := by omega
  simp [keys, hnonneg]

theorem ready_eq_zero (hs : s.DownWf) (h : s.ready = 0) : s.ring.rdOff = s.ring.wrOff :=
  eq_of_gap_eq hs.rdOff_lt hs.rdOff_lt hs.wrOff_lt (by rw [gap_self]; exact h.symm)

section Functions

variable (hR : ∀ {s t : Channel}, R s t → DownHosts s t)

include hR

theorem meets_readEach {Q : List (List Byte) → Channel → Prop} {sizes : List ℕ} (h : Typed s u)
    (hI : ∀ d t, Took s d t → I t)
    (hQ : ∀ ds t, List.Forall₂ (fun d size => d.length ≤ size) ds sizes → Took s ds.flatten t →
      Q ds t) : (readEach sizes).Meets R I Q u := by
  induction sizes generalizing s u Q with
  | nil => exact hQ [] u .nil h.took
  | cons size sizes ih =>
    simp only [readEach, meets_bind]
    refine meets_readNoLock hR h hI fun d t _ _ ht _ _ hlen => ?_
    exact ih ht.wf.typed (fun d' v hv => hI _ v (ht.append hv)) fun ds v hds hv =>
      hQ (d :: ds) v (.cons (by omega) hds) (by rw [List.flatten_cons]; exact ht.append hv)

/-- A key, unless nothing was stored for the target when it looked. -/
theorem meets_getKey {Q : ℤ → Channel → Prop} (h : Typed s u) (hI : ∀ d t, Took s d t → I t)
    (hnone : ∀ t v w, Took s [] t → R v w → s.ready ≤ w.ready → w.ready = 0 → Q (-1) t)
    (hkey : ∀ c t, Took s [c] t → Q c.toNat t) : getKey.Meets R I Q u := by
  simp only [getKey, meets_bind]
  refine meets_readNoLock hR h hI fun d t v w ht hvw hready hlen => ?_
  match d with
  | [] =>
    rw [List.length_nil] at hlen
    exact hnone t v w ht hvw hready (by omega)
  | [c] => exact hkey c t ht
  | _ :: _ :: _ =>
    simp only [List.length_cons] at hlen
    omega

/-- It waits while nothing is stored for the target. -/
theorem meets_waitKey {Q : Option ℤ → Channel → Prop} (h : Typed s u)
    (hI : ∀ d t, Took s d t → I t)
    (hnone : ∀ t, Took s [] t → ((∀ v w, R v w → 0 < w.ready) → rounds = 0) → Q none t)
    (hkey : ∀ c t, Took s [c] t → Q (some c.toNat) t) :
    (waitKey rounds).Meets R I Q u := by
  induction rounds generalizing s u with
  | zero => exact hnone u h.took fun _ => rfl
  | succ rounds ih =>
    simp only [waitKey, meets_bind]
    refine meets_getKey hR h hI (fun t v w ht hvw _ hzero => ?_) fun c t ht => ?_
    · rw [if_pos (by decide)]
      refine ih ht.wf.typed (fun d v hv => hI d v (ht.append hv)) (fun v' hv' _ => ?_)
        fun c v' hv' => hkey c v' (ht.append hv')
      exact hnone v' (ht.append hv') fun hall => absurd (hall v w hvw) (by omega)
    · rw [if_neg (by omega)]
      exact hkey c t ht

theorem meets_keyEach {Q : Option (List ℤ) → Channel → Prop} {waits : List Bool} (h : Typed s u)
    (hI : ∀ d t, Took s d t → I t)
    (hnone : ∀ d t, Took s d t → ((∀ v w, R v w → 0 < w.ready) → rounds = 0) → Q none t)
    (hsome : ∀ rs t, rs.length = waits.length → Took s (keys rs) t →
      ((∀ v w, R v w → 0 < w.ready) → ∀ r ∈ rs, 0 ≤ r) → Q (some rs) t) :
    (keyEach rounds waits).Meets R I Q u := by
  induction waits generalizing s u Q with
  | nil => exact hsome [] u rfl h.took fun _ r hr => absurd hr List.not_mem_nil
  | cons wait waits ih =>
    simp only [keyEach, meets_bind]
    have hkey : ∀ c t, Took s [c] t → (keyEach rounds waits).Meets R I
        (fun rs => (pure (rs.map ((c.toNat : ℤ) :: ·)) : Code Channel _).Meets R I Q) t := by
      intro c t ht
      refine ih ht.wf.typed (fun d v hv => hI _ v (ht.append hv))
        (fun d v hv hall => hnone _ v (ht.append hv) hall) fun rs v hlen hv hall => ?_
      refine hsome _ v (by rw [List.length_cons, hlen, List.length_cons]) ?_ fun hready r hr => ?_
      · have happ := ht.append hv
        rwa [← key_toNat c, keys, keys, ← List.filterMap_append] at happ
      · rcases List.mem_cons.1 hr with rfl | hr
        · exact Int.natCast_nonneg _
        · exact hall hready r hr
    rw [getChar]
    split
    · refine meets_waitKey hR h hI (fun t ht hall => hnone [] t ht hall) fun c t ht => ?_
      simp only [meets_bind]
      exact hkey c t ht
    · rw [meets_bind]
      refine meets_getKey hR h hI (fun t v w ht hvw _ hzero => ?_) fun c t ht => ?_
      · simp only [meets_pure, meets_bind]
        refine ih ht.wf.typed (fun d v hv => hI _ v (ht.append hv))
          (fun d v hv hall => hnone _ v (ht.append hv) hall) fun rs v' hlen hv hall => ?_
        refine hsome _ v' (by rw [List.length_cons, hlen, List.length_cons]) (ht.append hv)
          fun hready => absurd (hready v w hvw) (by omega)
      · simp only [meets_pure, meets_bind]
        exact hkey c t ht

/-- What has been seen to be there is there. -/
theorem meets_checkThenGet {Q : Bool × ℕ × ℤ → Channel → Prop} (h : Typed s u)
    (hI : ∀ d t, Took s d t → I t)
    (hQ : ∀ b v r t, (b = true ∨ v ≠ 0 → 0 ≤ r) → Took s (keys [r]) t → Q (b, v, r) t) :
    checkThenGet.Meets R I Q u := by
  simp only [checkThenGet, hasKey, hasData, meets_bind, meets_pure]
  refine meets_load_typed hR h hI fun t₁ _ h₁ => meets_load_typed hR h₁ hI fun t₂ _ h₂ => ?_
  refine meets_load_typed hR h₂.wf.typed (fun d v hv => hI d v (h₂.trans_took hv)) fun t₃ _ h₃ => ?_
  have h₂₃ := h₂.trans h₃
  have hI₃ : ∀ d v, Took t₃ d v → I v := fun d v hv => hI d v (h₂₃.trans_took hv)
  refine meets_load_typed hR h₃.wf.typed hI₃ fun t₄ _ h₄ => ?_
  refine meets_getKey hR h₄ hI₃ (fun v _ w hv _ hle hzero => hQ _ _ _ v (fun hfound => ?_)
    (h₂₃.trans_took hv)) fun c v hv => hQ _ _ _ v (fun _ => Int.natCast_nonneg _) ?_
  · -- what was found to differ still does
    have hready₃ : t₃.ready = 0 := by omega
    have hready₂ : t₂.ready = 0 := by
      have hle₃ := h₃.ready
      omega
    have hrd₂ : t₂.ring.rdOff = t₂.ring.wrOff := ready_eq_zero h₂.wf hready₂
    have hrd₃ : t₃.ring.rdOff = t₃.ring.wrOff := ready_eq_zero h₃.wf hready₃
    rw [h₁.rdOff, ← h₂.rdOff, hrd₂, h₄.rdOff, hrd₃] at hfound
    simp [sub32] at hfound
  · rw [key_toNat]
    exact h₂₃.trans_took hv

end Functions

/-! ## Every interleaving -/

/-- A buffer that the host has put two bytes in. -/
def typedTwo : Channel where
  ring := ⟨Function.update (Function.update (fun _ => 0#8) 3 65#8) 0 66#8, 4, 1, 3, noBlockSkip⟩
  cursor := 1
  seen := 3
  log := [65#8, 66#8]

theorem downWf_typedTwo : typedTwo.DownWf := by
  constructor <;> decide

theorem downWf_doInit : (doInit 4).DownWf := by
  constructor <;> decide

/-- **Nothing typed is lost, doubled or reordered.** What the host has typed
is what the reads have returned, and what is pending. -/
theorem reads_stream {c : Code Channel (List (List Byte))} {sizes : List ℕ} (hs : s.DownWf)
    (hruns : Runs DownHosts (readEach sizes, s) (c, t)) (hhost : DownHosts t u) :
    ∃ d more, u.log = s.log ++ more ∧ s.pending ++ more = d ++ u.pending ∧
      ∀ ds, c = pure ds → d = ds.flatten ∧
        List.Forall₂ (fun d size => d.length ≤ size) ds sizes := by
  obtain ⟨⟨d, hd⟩, hret⟩ := meets_runs (meets_readEach (fun h => h) hs.typed
    (I := fun t => ∃ d, Took s d t) (fun d t ht => ⟨d, ht⟩)
    (Q := fun ds t => List.Forall₂ (fun d size => d.length ≤ size) ds sizes ∧ Took s ds.flatten t)
    fun ds t hds ht => ⟨hds, ht⟩) ⟨[], hs.typed.took⟩ hruns
  have hlater : ∀ {d}, Took s d t → Took s d u := fun {d} hd => by
    simpa using hd.append (hd.wf.hosts hhost).took
  by_cases hc : ∃ ds, c = pure ds
  · obtain ⟨ds, rfl⟩ := hc
    obtain ⟨more, hlog, hmore⟩ := (hlater hret.2).more
    refine ⟨ds.flatten, more, hlog, hmore, fun ds' hds' => ?_⟩
    obtain rfl : ds = ds' := Code.ret.inj hds'
    exact ⟨rfl, hret.1⟩
  · obtain ⟨more, hlog, hmore⟩ := (hlater hd).more
    exact ⟨d, more, hlog, hmore, fun ds hds => absurd ⟨ds, hds⟩ hc⟩

/-- What is there when three reads have gone by, with the host typing on. -/
def typedOn : Channel := ((readEach [1, 2, 3]).among Channel.typeNext typedTwo).2

theorem reads_stream_typeNext : ∃ d more, typedOn.log = typedTwo.log ++ more ∧
    typedTwo.pending ++ more = d ++ typedOn.pending ∧
    d = [65#8, 66#8, 67#8, 68#8, 69#8, 70#8] := by
  have hruns : Runs DownHosts (readEach [1, 2, 3], typedTwo)
      (pure [[65#8], [66#8, 67#8], [68#8, 69#8, 70#8]], typedOn) :=
    runs_typeNext (readEach [1, 2, 3]) typedTwo
  obtain ⟨d, more, hlog, hmore, hret⟩ := reads_stream downWf_typedTwo hruns .refl
  exact ⟨d, more, hlog, hmore, (hret _ rfl).1⟩

/-- **The keys are what was typed**, however they were asked for: what the
results hold is the bytes that have left the buffer, in order. -/
theorem keys_typed {c : Code Channel (Option (List ℤ))} {waits : List Bool} (hs : s.DownWf)
    (hruns : Runs DownHosts (keyEach rounds waits, s) (c, t)) (hhost : DownHosts t u) :
    ∃ d more, u.log = s.log ++ more ∧ s.pending ++ more = d ++ u.pending ∧
      ∀ rs, c = pure (some rs) → d = keys rs ∧ rs.length = waits.length := by
  obtain ⟨⟨d, hd⟩, hret⟩ := meets_runs (meets_keyEach (fun h => h) hs.typed
    (I := fun t => ∃ d, Took s d t) (fun d t ht => ⟨d, ht⟩)
    (Q := fun r t => ∀ rs, r = some rs → Took s (keys rs) t ∧ rs.length = waits.length)
    (fun _ _ _ _ _ h => nomatch h)
    fun rs t hlen ht _ rs' hrs' => Option.some.inj hrs' ▸ ⟨ht, hlen⟩) ⟨[], hs.typed.took⟩ hruns
  have hlater : ∀ {d}, Took s d t → Took s d u := fun {d} hd => by
    simpa using hd.append (hd.wf.hosts hhost).took
  by_cases hc : ∃ rs, c = pure (some rs)
  · obtain ⟨rs, rfl⟩ := hc
    obtain ⟨htook, hlen⟩ := hret rs rfl
    obtain ⟨more, hlog, hmore⟩ := (hlater htook).more
    refine ⟨keys rs, more, hlog, hmore, fun rs' hrs' => ?_⟩
    obtain rfl : rs = rs' := Option.some.inj (Code.ret.inj hrs')
    exact ⟨rfl, hlen⟩
  · obtain ⟨more, hlog, hmore⟩ := (hlater hd).more
    exact ⟨d, more, hlog, hmore, fun rs hrs => absurd ⟨rs, hrs⟩ hc⟩

theorem keys_typed_typeNext : ∃ d more,
    ((keyEach 1 [true, false, false]).among Channel.typeNext typedTwo).2.log =
        typedTwo.log ++ more ∧
      typedTwo.pending ++ more =
        d ++ ((keyEach 1 [true, false, false]).among Channel.typeNext typedTwo).2.pending ∧
      d = keys [65, 66, 67] := by
  have hruns := runs_typeNext (keyEach 1 [true, false, false]) typedTwo
  obtain ⟨d, more, hlog, hmore, hret⟩ := keys_typed downWf_typedTwo hruns .refl
  exact ⟨d, more, hlog, hmore, (hret _ rfl).1⟩

/-- **A key does not wait for ever.** Where the host has always stored
something for the target by the time it looks, every call returns a key, in
the first round. -/
theorem keys_come {r : Option (List ℤ)} {waits : List Bool} (hs : s.DownWf) (hrounds : 0 < rounds)
    (hruns : Runs (fun s t => DownHosts s t ∧ 0 < t.ready) (keyEach rounds waits, s)
      (pure r, t)) :
    ∃ rs more, r = some rs ∧ rs.length = waits.length ∧ (∀ r ∈ rs, 0 ≤ r) ∧
      t.log = s.log ++ more ∧ s.pending ++ more = keys rs ++ t.pending := by
  have hmeets : (keyEach rounds waits).Meets (fun s t => DownHosts s t ∧ 0 < t.ready)
      (fun _ => True) (fun r t => ∃ rs, r = some rs ∧ rs.length = waits.length ∧
        (∀ r ∈ rs, 0 ≤ r) ∧ Took s (keys rs) t) s :=
    meets_keyEach (fun h => h.1) hs.typed (fun _ _ _ => trivial)
      (fun _ _ _ hall => absurd (hall fun _ _ h => h.2) hrounds.ne')
      fun rs t hlen ht hall => ⟨rs, rfl, hlen, hall fun _ _ h => h.2, ht⟩
  obtain ⟨rs, hr, hlen, hall, htook⟩ := (meets_runs hmeets trivial hruns).2
  obtain ⟨more, hlog, hmore⟩ := htook.more
  exact ⟨rs, more, hr, hlen, hall, hlog, hmore⟩

theorem keys_come_typeNext : ∃ rs more,
    ((keyEach 1 [true, false]).among Channel.typeNext typedTwo).1 = some rs ∧
      rs.length = 2 ∧ (∀ r ∈ rs, 0 ≤ r) ∧
      ((keyEach 1 [true, false]).among Channel.typeNext typedTwo).2.log =
        typedTwo.log ++ more ∧
      typedTwo.pending ++ more =
        keys rs ++ ((keyEach 1 [true, false]).among Channel.typeNext typedTwo).2.pending :=
  have hruns := runs_among (R := fun s t => DownHosts s t ∧ 0 < t.ready)
    (P := fun t => 0 < t.ready) (fun s hready => ⟨downHosts_typeNext s, hready⟩) (by decide)
  keys_come downWf_typedTwo Nat.one_pos hruns

/-- **A key that is seen is got.** After either check has found something, the
next read returns a key. -/
theorem key_there {b : Bool} {v : ℕ} {r : ℤ} (hs : s.DownWf)
    (hruns : Runs DownHosts (checkThenGet, s) (pure (b, v, r), t)) (hfound : b = true ∨ v ≠ 0) :
    0 ≤ r ∧ ∃ more, t.log = s.log ++ more ∧ s.pending ++ more = keys [r] ++ t.pending := by
  have hmeets := meets_checkThenGet (R := DownHosts) (fun h => h) hs.typed (I := fun _ => True)
    (fun _ _ _ => trivial)
    (Q := fun x t => (x.1 = true ∨ x.2.1 ≠ 0 → 0 ≤ x.2.2) ∧ Took s (keys [x.2.2]) t)
    fun b v r t hr ht => ⟨hr, ht⟩
  obtain ⟨hr, htook⟩ := (meets_runs hmeets trivial hruns).2
  exact ⟨hr hfound, htook.more⟩

/-- The key is typed while the checks are made. -/
theorem key_there_typeNext :
    0 ≤ (checkThenGet.among Channel.typeNext (doInit 4)).1.2.2 ∧ ∃ more,
      (checkThenGet.among Channel.typeNext (doInit 4)).2.log = (doInit 4).log ++ more ∧
        (doInit 4).pending ++ more =
          keys [(checkThenGet.among Channel.typeNext (doInit 4)).1.2.2] ++
            (checkThenGet.among Channel.typeNext (doInit 4)).2.pending :=
  key_there downWf_doInit (runs_typeNext checkThenGet (doInit 4)) (.inl rfl)

end Rtt

end AntTracer
