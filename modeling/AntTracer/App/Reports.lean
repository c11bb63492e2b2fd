import AntTracer.App.Saves

/-!
# Saves reported done

`StoreConfigurationIsDone` reads one flag for all requests. What it reports has
been written to a slot, as long as no save completes while a newer request
waits (`reported_iff`). But one that does clears the flag (`not_reported`), and
the tracer may be reset before the newer configuration is written.
-/

namespace AntTracer

namespace App

/-! ## What is reported -/

/-- The copy has been written to a slot since it was taken. -/
def Save.Stored (x : Save) (l : Log) : Prop :=
  ∃ i < configSlots, (slotAddr i, x.config.words) ∈ l.written.drop x.writes

instance (x : Save) (l : Log) : Decidable (x.Stored l) :=
  inferInstanceAs (Decidable (∃ i < configSlots, _ ∈ _))

/-- **What is reported done is done**: there was no request, or a copy taken
after the last one has been written. -/
def Reported (s : Store) : Prop :=
  storeConfigurationIsDone s = true →
    s.requests = 0 ∨ ∃ x ∈ s.saves, x.requests = s.requests ∧ x.Stored s.log

instance (s : Store) : Decidable (Reported s) := inferInstanceAs (Decidable (_ → _))

/-- A pass completes a save while a newer request waits. -/
def Early (s : Store) : Prop :=
  s.state = .config3 ∧ s.log.flashComplete = true ∧ s.opFlag.config = true

/-- No pass does. -/
def NotEarly (s : Store) (e : SystemEvent) : Prop := e = .event .loop → ¬ Early s

/-! ## The history of the writes -/

theorem written_storeFlashed (ok : Bool) (l : Log) : l.written <+: (storeFlashed ok l).written := by
  unfold storeFlashed
  split
  · exact List.prefix_refl _
  split
  · exact List.prefix_refl _
  split
  · dsimp only
    split_ifs <;> exact List.prefix_refl _
  · -- out of tries, it writes by itself
    dsimp only
    split_ifs
    · exact List.prefix_append _ _
    · exact List.prefix_refl _
    · exact List.prefix_append _ _
    · exact List.prefix_refl _

/-- **The history of the writes only grows.** -/
theorem written_sdEvent (l : Log) (e : SdEvent) : l.written <+: (sdEvent l e).written := by
  cases e with
  | work =>
    rw [sdEvent, sdStep]
    split
    · exact List.prefix_refl _
    · split
      · exact List.prefix_refl _
      · exact List.prefix_refl _
    · exact List.prefix_refl _
  | success =>
    rw [sdEvent, sdSuccess]
    split
    · exact List.prefix_refl _
    · split
      · exact List.prefix_append _ _
      · exact List.prefix_refl _
    · exact List.prefix_refl _
  | error =>
    rw [sdEvent, sdError]
    split
    · exact written_storeFlashed false { l with sd := none }
    · exact List.prefix_refl _

section Written

variable {x : Save} {l l' : Log}

theorem Save.Stored.mono (h : x.Stored l) (hw : l.written <+: l'.written) : x.Stored l' := by
  obtain ⟨i, hi, hmem⟩ := h
  exact ⟨i, hi, (hw.drop x.writes).subset hmem⟩

/-- The copy is being written to a slot, or has been. -/
def Programming (x : Save) (l : Log) : Prop :=
  (∃ i < configSlots, ∃ j, WritingOp l (slotAddr i) .config x.config.words j ∧
      Covered l.flash (slotAddr i) x.config.words j) ∨
    (l.sd = none ∧ l.flashComplete = true ∧ x.Stored l)

/-- **An event of the soft device.** -/
theorem Programming.step (h : Programming x l) (hle : x.writes ≤ l.written.length) (e : SdEvent) :
    Programming x (sdEvent l e) := by
  rcases h with ⟨i, hi, j, op, hc⟩ | ⟨hsd, hfc, hstored⟩
  · rcases op.covered_step hc e with ⟨j', op', hc'⟩ | ⟨hsd, hfc, -, hwritten⟩
    · exact Or.inl ⟨i, hi, j', op', hc'⟩
    · refine Or.inr ⟨hsd, hfc, i, hi, ?_⟩
      rw [hwritten, List.drop_append_of_le_length hle]
      exact List.mem_append_right _ (List.mem_singleton.2 rfl)
  · rw [sdEvent_of_none hsd]
    exact Or.inr ⟨hsd, hfc, hstored⟩

theorem Programming.setSu (h : Programming x l) (u : Union) : Programming x (l.setSu u) := by
  rcases h with ⟨i, hi, j, op, hc⟩ | h
  · exact Or.inl ⟨i, hi, j, ⟨op.sd, op.le, op.complete, op.eraseOp, op.writeOp,
      op.address, op.source, op.count, op.ram⟩, hc⟩
  · exact Or.inr h

/-- A write that is complete has been performed. -/
theorem Programming.stored (h : Programming x l) (hfc : l.flashComplete = true) : x.Stored l := by
  rcases h with ⟨i, hi, j, op, -⟩ | ⟨-, -, hstored⟩
  · rw [op.complete] at hfc
    cases hfc
  · exact hstored

/-- A slot is written to from the staging area. -/
theorem programming_flashWrite (hsd : l.sd = none) (hx : x.config = l.staging.config) {i : ℕ}
    (hi : i < configSlots) : Programming x (flashWrite (slotAddr i) .config configWords l) := by
  have hlen : x.config.words.length = configWords := Config.length_words _
  have hop := writingOp_flashWrite hsd (slotAddr i) .config (W := x.config.words)
    (by rw [hlen, hx]; exact ram_config l)
  rw [hlen] at hop
  exact Or.inl ⟨i, hi, 0, hop, fun k hk => absurd hk (Nat.not_lt_zero k)⟩

end Written

/-! ## The account of the requests -/

/-- The copy of the save in progress; unless a newer request waits, it serves
them all. -/
def Current (s : Store) (x : Save) : Prop :=
  x ∈ s.saves ∧ x.config = s.log.staging.config ∧
    (s.opFlag.config = false → x.requests = s.requests) ∧ (s.state = .config3 → Programming x s.log)

/-- **What holds between the rounds**, as long as nothing was reported early. -/
structure Accounted (s : Store) : Prop where
  flow : Flow s
  booting : s.state = .init0 → s.saves = []
  copies : ∀ x ∈ s.saves, x.requests ≤ s.requests ∧ x.writes ≤ s.log.written.length
  pending : s.opFlag.config = true → s.configSaving = true ∧ ∀ x ∈ s.saves, x.requests < s.requests
  reported : Reported s
  saving : InSave s → ∃ x, Current s x

section Accounted

variable {s s' : Store}

/-- The account is kept by what neither asks for a save nor takes a copy. -/
theorem Accounted.congr (h : Accounted s) (hflow : Flow s') (hsaves : s'.saves = s.saves)
    (hrequests : s'.requests = s.requests) (hflag : s'.opFlag.config = s.opFlag.config)
    (hsaving : s'.configSaving = s.configSaving)
    (hstaging : s'.log.staging.config = s.log.staging.config)
    (hwritten : s.log.written <+: s'.log.written) (hboot : s'.state = .init0 → s.state = .init0)
    (hin : InSave s' → InSave s)
    (hslot : ∀ x, Current s x → s'.state = .config3 → Programming x s'.log) : Accounted s' := by
  refine ⟨hflow, fun hs => hsaves.trans (h.booting (hboot hs)), ?_, ?_, ?_, fun hs => ?_⟩
  · rw [hsaves, hrequests]
    exact fun x hx => ⟨(h.copies x hx).1, (h.copies x hx).2.trans hwritten.length_le⟩
  · rw [hflag, hsaving, hsaves, hrequests]
    exact h.pending
  · unfold Reported storeConfigurationIsDone
    rw [hsaves, hrequests, hsaving]
    exact fun hdone => (h.reported hdone).imp id fun ⟨x, hx, heq, hstored⟩ =>
      ⟨x, hx, heq, hstored.mono hwritten⟩
  · obtain ⟨x, hx⟩ := h.saving (hin hs)
    obtain ⟨hmem, hconfig, hserves, -⟩ := id hx
    refine ⟨x, hsaves ▸ hmem, hconfig.trans hstaging.symm, fun hclear => ?_, hslot x hx⟩
    rw [hrequests]
    exact hserves (hflag ▸ hclear)

/-- **A copy taken** serves all requests there were. -/
theorem Accounted.copy (h : Accounted s) (hflag : s.opFlag.config = true) (hflow : Flow s')
    (hsaves : s'.saves = s.saves ++ [⟨s'.log.staging.config, s.requests, s.log.written.length⟩])
    (hrequests : s'.requests = s.requests) (hclear : s'.opFlag.config = false)
    (hsaving : s'.configSaving = s.configSaving) (hwritten : s'.log.written = s.log.written)
    (hboot : s'.state ≠ .init0)
    (hslot : s'.state = .config3 →
      Programming ⟨s'.log.staging.config, s.requests, s.log.written.length⟩ s'.log) :
        Accounted s' := by
  obtain ⟨hbusy, -⟩ := h.pending hflag
  refine ⟨hflow, fun hs => absurd hs hboot, fun x hx => ?_, fun hf => ?_, fun hdone =>
    ?_, fun _ => ?_⟩
  · rw [hsaves] at hx
    rw [hrequests, hwritten]
    rcases List.mem_append.1 hx with hx | hx
    · exact h.copies x hx
    · rw [List.mem_singleton.1 hx]
      exact ⟨le_rfl, le_rfl⟩
  · rw [hclear] at hf
    cases hf
  · rw [storeConfigurationIsDone, hsaving, hbusy] at hdone
    cases hdone
  · refine ⟨_, hsaves ▸ List.mem_append_right _ (List.mem_singleton.2 rfl), rfl, fun _ => ?_, hslot⟩
    exact hrequests.symm

/-- Only a save leads on to a save. -/
theorem inSave_handed {r : Log × Bool} (hsaved : s.savedState = .idle ∨ s.savedState = .config1)
    (hs : InSave (handed r s)) : s.savedState = .config1 := by
  refine hsaved.resolve_left fun hidle => ?_
  rcases r with ⟨l, _ | _⟩ <;> simp [InSave, handed, hidle] at hs

/-- The handler asks for the save of what it loads. -/
theorem callbacks_pending (cs : List Config) : ∀ s : Store,
    (s.opFlag.config = true → s.configSaving = true) → (s.configSaving = false → s.requests = 0) →
    ((callbacks cs s).opFlag.config = true → (callbacks cs s).configSaving = true) ∧
      ((callbacks cs s).configSaving = false → (callbacks cs s).requests = 0) := by
  induction cs with
  | nil => exact fun _ h₁ h₂ => ⟨h₁, h₂⟩
  | cons c cs ih =>
    intro s h₁ h₂
    rw [callbacks, List.foldl_cons, ← callbacks]
    refine ih _ ?_ ?_
    · unfold storeCallbackConfiguration
      split
      · exact fun _ => rfl
      · exact h₁
    · unfold storeCallbackConfiguration
      split
      · exact fun h => Bool.noConfusion h
      · exact h₂

/-- **A round** that does not report early. -/
theorem Accounted.round (h : Accounted s) (hround : Round s s') (hearly : ¬ Early s) :
    Accounted s' := by
  have hflow := (h.flow.round hround).2
  have hsd := h.flow.round_free hround
  cases hround with
  | init0 hs =>
    have hnone : (App.init0 s).saves = [] := (init0_history s).1.trans (h.booting hs)
    have hdone : s.configSaving = false → s.requests = 0 := by
      intro hf
      refine (h.reported ?_).elim id fun ⟨x, hx, _⟩ => ?_
      · rw [storeConfigurationIsDone, hf]
        rfl
      · rw [h.booting hs] at hx
        cases hx
    obtain ⟨hpending, hzero⟩ := callbacks_pending (configsIn (rawRecords storeRegion s.log.flash)) s
      (fun hf => (h.pending hf).1) hdone
    obtain ⟨b, hinit⟩ := init0_eq s
    have hstate : ¬ InSave (App.init0 s) := by
      rw [hinit]
      simp [InSave]
    refine ⟨hflow, fun _ => hnone, fun x hx => ?_, fun hf => ?_, fun hf => Or.inl ?_,
      fun hin => absurd hin hstate⟩
    · rw [hnone] at hx
      cases hx
    · rw [hnone]
      rw [hinit] at hf ⊢
      exact ⟨hpending hf, nofun⟩
    · rw [storeConfigurationIsDone, hinit, Bool.not_eq_true'] at hf
      rw [hinit]
      exact hzero hf
  | @slot i hs hflag hi =>
    exact h.copy hflag.1 hflow rfl rfl rfl rfl rfl nofun fun _ =>
      programming_flashWrite (by exact hsd) rfl (freeSlot_eq_some hi).1
  | full hs hflag hfull =>
    obtain ⟨-, hstaging, hwritten, -⟩ := appendRecord_kept rtConfig
      (configFields (copyConfig (takeConfig s)).log.staging.config) (copyConfig (takeConfig s)).log
    have hcopy := congrArg Staging.config hstaging
    refine h.copy hflag.1 hflow ?_ rfl rfl rfl hwritten (fun hs' => ?_) fun hs' => ?_
    · exact congrArg (fun c => s.saves ++ [Save.mk c s.requests s.log.written.length]) hcopy.symm
    · exact not_waits_handed (Or.inr rfl) (Or.inl hs')
    · exact absurd (Or.inr (Or.inr hs')) (not_waits_handed (Or.inr rfl))
  | part p st hs hflag =>
    obtain ⟨-, hstaging, hwritten, -⟩ := appendRecord_kept p.type (p.fields s.log.staging.su) s.log
    have hwaits := not_waits_handed (r := appendRecord p.type (p.fields s.log.staging.su) s.log)
      (s := { s with
        opFlag := p.clear s.opFlag
        state := st
        savedState := .idle
        wanted := s.wanted ++ [recordWords p.type (p.fields s.asked) s.log.buf] }) (Or.inl rfl)
    refine h.congr hflow rfl rfl (by cases p <;> rfl) rfl (congrArg Staging.config hstaging)
      ⟨[], (List.append_nil _).trans hwritten.symm⟩ (fun hs' => absurd (Or.inl hs') hwaits)
        (fun hin => ?_)
      fun x _ hs' => absurd (Or.inr (Or.inr hs')) hwaits
    cases inSave_handed (Or.inl rfl) hin
  | go hs hfc =>
    obtain ⟨-, hstaging, hwritten, -⟩ := wrGo_kept s.log
    have hsaved := h.flow.resting.savedState hs
    have hwaits := not_waits_handed (r := wrGo s.log) hsaved
    exact h.congr hflow rfl rfl rfl rfl (congrArg Staging.config hstaging)
      ⟨[], (List.append_nil _).trans hwritten.symm⟩ (fun hs' => absurd (Or.inl hs') hwaits)
      (fun hin => Or.inr (Or.inr (Or.inr ⟨hs, inSave_handed hsaved hin⟩)))
      fun x _ hs' => absurd (Or.inr (Or.inr hs')) hwaits
  | erase hs =>
    exact h.congr hflow rfl rfl rfl rfl rfl (List.prefix_refl _) nofun (fun _ => Or.inl hs) nofun
  | rewrite hs hfc =>
    exact h.congr hflow rfl rfl rfl rfl rfl (List.prefix_refl _) nofun (fun _ => Or.inr (Or.inl hs))
      fun x hx _ => programming_flashWrite hsd hx.2.1 (by decide)
  | saved hs hfc =>
    have hclear : s.opFlag.config = false := by
      simpa using fun hf => hearly ⟨hs, hfc, hf⟩
    obtain ⟨x, hx, -, hserves, hslot⟩ := h.saving (Or.inr (Or.inr (Or.inl hs)))
    refine ⟨hflow, nofun, h.copies, fun hf => ?_, fun _ => ?_, fun hin => ?_⟩
    · exact absurd (hclear.symm.trans hf) Bool.false_ne_true
    · exact Or.inr ⟨x, hx, hserves hclear, (hslot hs).stored hfc⟩
    · simp [InSave] at hin

/-- **A pass.** -/
theorem Accounted.loop (h : Accounted s) (hearly : ¬ Early s) : Accounted (storeSuperLoop s).1 :=
  h.flow.pass Accounted Accounted (fun _ => h) h (fun _ _ hround => h.round hround hearly)
    (fun _ _ _ hs hacc hround => hacc.round hround fun he => hs (Or.inr (Or.inr he.1))) fun _ => id

/-- A pass that completes a save too early reports it. -/
theorem Accounted.not_reported (h : Accounted s) (hearly : Early s) :
    ¬ Reported (storeSuperLoop s).1 := by
  obtain ⟨hs, hfc, hflag⟩ := hearly
  obtain ⟨-, hold⟩ := h.pending hflag
  have heq : (storeSuperLoop s).1 = { s with
      configSaving := false
      state := .idle
      saved := s.saves.getLast?.map Save.config } := by
    rw [storeSuperLoop, storeLoop, hs]
    exact congrArg Prod.fst (if_neg (not_not.2 hfc))
  rw [heq]
  intro hr
  rcases hr rfl with hzero | ⟨x, hx, hlast, -⟩
  · obtain ⟨x, hx, -⟩ := h.saving (Or.inr (Or.inr (Or.inl hs)))
    have hlt := hold x hx
    rw [show s.requests = 0 from hzero] at hlt
    exact Nat.not_lt_zero _ hlt
  · exact absurd hlast (hold x hx).ne

/-! ## Runs -/

theorem accounted_startUp (s : Store) : Accounted (startUp s) where
  flow := flow_startUp s
  booting _ := rfl
  copies := nofun
  pending := nofun
  reported _ := Or.inl rfl
  saving hin := by simp [InSave, startUp, configInitialize, powerOff] at hin

/-- Other events leave the account and the log alone, but for the union. -/
theorem Accounted.event (h : Accounted s) (hflow : Flow s') (hsaves : s'.saves = s.saves)
    (hrequests : s'.requests = s.requests) (hflag : s'.opFlag.config = s.opFlag.config)
    (hsaving : s'.configSaving = s.configSaving) (hstate : s'.state = s.state)
    (hsaved : s'.savedState = s.savedState) (u : Union) (hlog : s'.log = s.log.setSu u) :
    Accounted s' := by
  refine h.congr hflow hsaves hrequests hflag hsaving ?_ ?_ (hstate ▸ id) ?_ fun x hx hs => ?_
  · rw [hlog]
    rfl
  · rw [hlog]
    exact List.prefix_refl _
  · unfold InSave
    rw [hstate, hsaved]
    exact id
  · rw [hlog]
    exact (hx.2.2.2 (hstate ▸ hs)).setSu u

/-- **Every event** but a pass that reports early keeps the account. -/
theorem Accounted.step (h : Accounted s) {e : SystemEvent} (hearly : NotEarly s e) :
    Accounted (systemStep s e) := by
  have hflow := h.flow.step e
  cases e with
  | reboot => exact accounted_startUp s
  | event e =>
    cases e with
    | loop => exact h.loop (hearly rfl)
    | device e =>
      obtain ⟨flash', sd', fc, tries, rs', written', refused', hbeside⟩ := sdEvent_beside s.log e
      have hstaging : (sdEvent s.log e).staging = s.log.staging := by rw [hbeside]
      exact h.congr hflow rfl rfl rfl rfl (congrArg Staging.config hstaging)
        (written_sdEvent s.log e) id id fun x hx hs => (hx.2.2.2 hs).step (h.copies x hx.1).2 e
    | save force =>
      refine ⟨hflow, h.booting, fun x hx => ?_, fun _ => ⟨rfl, fun x hx => ?_⟩,
        nofun, fun hin => ?_⟩
      · exact ⟨(h.copies x hx).1.trans (Nat.le_succ _), (h.copies x hx).2⟩
      · exact Nat.lt_succ_of_le (h.copies x hx).1
      · obtain ⟨x, hx, hconfig, -, hslot⟩ := h.saving hin
        exact ⟨x, hx, hconfig, nofun, hslot⟩
    | tick | change | factory | info | chunk | exec =>
      exact h.event hflow rfl rfl rfl rfl rfl rfl _ rfl

end Accounted

/-- **Saves are reported done when they are**, just as long as no pass completes
one while a newer request waits. -/
theorem reported_iff (flash : ℕ → Word) (es : List SystemEvent) :
    Runs.Throughout systemStep Reported (Store.first flash) es ↔
      Runs.Each systemStep NotEarly (Store.first flash) es := by
  have hstep : ∀ s e, Accounted s → NotEarly s e → Accounted (systemStep s e) :=
    fun s e h hearly => h.step hearly
  have hexact : ∀ s e, Accounted s → (Reported (systemStep s e) ↔ NotEarly s e) := by
    intro s e h
    refine ⟨fun hr he hearly => ?_, fun hearly => (h.step hearly).reported⟩
    subst he
    exact h.not_reported hearly hr
  exact Runs.throughout_iff_each hstep hexact (accounted_startUp _) fun _ => Or.inl rfl

/-- `Config` changes, and a save is asked for, while a copy is written. -/
def overtaken : List SystemEvent :=
  [.event .loop, .event (.save true), .event .loop, .event (.change ⟨fun _ => 1#32⟩),
    .event (.save true)] ++ List.replicate 32 (.event (.device .work)) ++
    [.event (.device .success), .event .loop]

set_option maxRecDepth 100000 in
/-- **The change is reported saved before it is.** -/
theorem not_reported :
    ¬ Runs.Throughout systemStep Reported (Store.first fun _ => erasedWord) overtaken := by
  have hlast : ¬ Reported (Runs.run systemStep (Store.first fun _ => erasedWord)
    overtaken) := by decide
  exact fun h => hlast (Runs.throughout_iff.1 h _ (List.prefix_refl _))

end App

end AntTracer
