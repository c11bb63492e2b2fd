import AntTracer.App.Recovery
import AntTracer.App.Rounds

/-!
# Reading the store at start up

The store reads what the log reads (`storeReader_delivers`), and hands the
sound configurations on to `StoreCallbackConfiguration`. So start up finds
the end of the log as `boot` does, and in `Config` the newest of what the
slots and the log hold (`init0_eq`, `callbacks_eq`).
-/

namespace AntTracer

namespace App

/-! ## Delivery to the store -/

/-- The configuration a raw record hands on: one that is long enough and
whose CRC is right. -/
def configIn (l : List Word) : Option Config :=
  if typeOf l = rtConfig then (readAs rdConfig l).filter fun c => decide c.Sound else none

/-- What the store does with a raw record. -/
def Store.deliver (ofConfig : Bool) (l : List Word) (s : Store) : Store :=
  let s := { s with log := App.deliver l s.log }
  if ofConfig = true then (configIn l).elim s fun c => storeCallbackConfiguration c s else s

/-- The reads of a configuration put it into the staging area. -/
theorem importFields_config (st : Staging) (b : Buffer) :
    (importFields rtConfig b st).2.config = (rdConfig b).1 := by
  rw [importFields, if_neg (by decide), if_pos rfl]

theorem Store.importRecord_eq (ofConfig : Bool) {s : Store} {l : List Word}
    (h : s.log.buf.Holds (some l)) :
    ∃ b, Store.importRecord ofConfig s =
      (storeReader ofConfig).setBuf (s.deliver ofConfig l) b := by
  have hpos : 0 < l.length := by have := h.1; omega
  have hty : recordType (s.log.buf.buffer 0) = typeOf l := by
    rw [h.2.2 0 hpos, typeOf, List.getD_eq_getElem _ _ hpos]
  -- whether the record is long enough, the buffer says
  have hlimit := (importFields_rewind (typeOf l) s.log.staging h).2
  have hbuf : (App.importRecord s.log).buf =
    (importFields (typeOf l) s.log.buf.rewind s.log.staging).1 := by
    rw [App.importRecord, hty]
  obtain ⟨b, hb⟩ := App.importRecord_eq h
  refine ⟨b, ?_⟩
  have hb' : (App.importRecord s.log).buf = b := by rw [hb]; rfl
  rw [Store.importRecord, hty]
  dsimp only
  rw [hbuf]
  have hstaging : (App.importRecord s.log).staging = (App.deliver l s.log).staging :=
    by rw [hb]; rfl
  by_cases hconf : typeOf l = rtConfig ∧ ofConfig = true
  · obtain ⟨hconf, rfl⟩ := hconf
    have hread : (App.deliver l s.log).staging.config = (rdConfig (bufferOf l)).1 := by
      rw [App.deliver, hconf]
      exact importFields_config _ _
    have hshort : (rdConfig (bufferOf l)).2.bufferLimit = 0 ↔
        (importFields (typeOf l) s.log.buf.rewind s.log.staging).1.bufferLimit = 0 := by
      rw [hlimit, hconf, rdConfig_reads.limit_eq_zero_iff (by rintro rfl; simp at hpos)]
      rfl
    rw [hstaging, hread, if_pos (⟨hconf, rfl⟩ : typeOf l = rtConfig ∧ true = true), Store.deliver,
      configIn, if_pos hconf, if_pos rfl, readAs]
    by_cases h₀ : (rdConfig (bufferOf l)).2.bufferLimit = 0
    · rw [if_pos (hshort.1 h₀), if_pos h₀, hb]
      rfl
    · rw [if_neg fun hc => h₀ (hshort.2 hc), if_neg h₀]
      by_cases hs : (rdConfig (bufferOf l)).1.Sound
      · have hs' : (rdConfig (bufferOf l)).1.confCRC = configCRC (rdConfig (bufferOf l)).1 := hs
        rw [if_pos hs', Option.filter_some, if_pos (by simpa using hs), hb]
        simp only [Option.elim, storeCallbackConfiguration]
        split <;> rfl
      · have hs' : ¬ (rdConfig (bufferOf l)).1.confCRC = configCRC (rdConfig (bufferOf l)).1 := hs
        rw [if_neg hs', Option.filter_some, if_neg (by simpa using hs), hb]
        rfl
  · rw [if_neg hconf, ite_self, hb, Store.deliver]
    by_cases ho : ofConfig = true
    · rw [if_pos ho, configIn, if_neg fun hc => hconf ⟨hc, ho⟩]
      rfl
    · rw [if_neg ho]
      rfl

theorem storeReader_delivers (ofConfig : Bool) :
    (storeReader ofConfig).Delivers (Store.deliver ofConfig) where
  importRecord_eq _ _ h := Store.importRecord_eq ofConfig h
  deliver_setBuf l s b := by
    simp only [Store.deliver, storeReader, App.deliver]
    by_cases ho : ofConfig = true
    · rw [if_pos ho, if_pos ho]
      cases configIn l with
      | none => rfl
      | some c =>
        simp only [Option.elim, storeCallbackConfiguration]
        split <;> rfl
    · rw [if_neg ho, if_neg ho]

/-! ## The whole read -/

/-- The configurations raw records hand on. -/
def configsIn (ls : List (List Word)) : List Config := ls.filterMap configIn

/-- The handler called for one configuration after the other. -/
def callbacks (cs : List Config) (s : Store) : Store :=
  cs.foldl (fun s c => storeCallbackConfiguration c s) s

/-- The configuration the handler keeps. -/
def newer (c cf : Config) : Config :=
  if c.confSequence < cf.confSequence ∧ cf.confCRC = configCRC cf then cf else c

/-- **The handler** keeps the newer configuration, and has it saved. -/
theorem callbacks_eq (cs : List Config) : ∀ s : Store, ∃ timer flag saving requests,
    callbacks cs s = { s with
      config := cs.foldl newer s.config
      configSaveTimer := timer
      opFlag := { s.opFlag with config := flag }
      configSaving := saving
      requests := requests } := by
  induction cs with
  | nil => exact fun s => ⟨s.configSaveTimer, s.opFlag.config, s.configSaving, s.requests, rfl⟩
  | cons c cs ih =>
    intro s
    obtain ⟨timer, flag, saving, requests, h⟩ := ih (storeCallbackConfiguration c s)
    refine ⟨timer, flag, saving, requests, ?_⟩
    rw [callbacks, List.foldl_cons, ← callbacks, h, List.foldl_cons,
      storeCallbackConfiguration, newer]
    split <;> rfl

/-- The handler does not look at the log. -/
theorem callbacks_log (cs : List Config) (l : Log) : ∀ s : Store,
    callbacks cs { s with log := l } = { callbacks cs s with log := l } := by
  induction cs with
  | nil => exact fun _ => rfl
  | cons c cs ih =>
    intro s
    have hstep : storeCallbackConfiguration c { s with log := l } =
        { storeCallbackConfiguration c s with log := l } := by
      unfold storeCallbackConfiguration
      split <;> rfl
    rw [callbacks, List.foldl_cons, ← callbacks, hstep, ih]
    rfl

theorem deliverAll_store (ls : List (List Word)) : ∀ s : Store,
    deliverAll (Store.deliver true) ls s =
      { callbacks (configsIn ls) s with log := deliverAll App.deliver ls s.log } := by
  induction ls with
  | nil => exact fun _ => rfl
  | cons l ls ih =>
    intro s
    refine (ih (Store.deliver true l s)).trans ?_
    rw [Store.deliver, if_pos rfl, configsIn, configsIn, List.filterMap_cons]
    cases configIn l with
    | none =>
      simp only [Option.elim]
      rw [callbacks_log]
      rfl
    | some c =>
      have hlog : (storeCallbackConfiguration c { s with log := App.deliver l s.log }) =
          { storeCallbackConfiguration c s with log := App.deliver l s.log } :=
            callbacks_log [c] _ s
      simp only [Option.elim]
      rw [hlog, callbacks_log]
      rfl

/-- The reads leave the flash alone. -/
theorem storeReader_keeps (ofConfig : Bool) (flash : ℕ → Word) :
    (storeReader ofConfig).Keeps (Store.deliver ofConfig) storeRegion.start flash (fun _ => True)
      (fun s => s.log.flash = flash) where
  word_eq _ h _ _ _ := congrFun h _
  inv_deliver s l h := by
    rw [← h, Store.deliver]
    split
    · cases configIn l with
      | none => rfl
      | some c =>
        simp only [Option.elim, storeCallbackConfiguration]
        split <;> rfl
    · rfl
  bad_deliver _ _ h := absurd trivial h
  inv_setBuf _ _ := Iff.rfl
  good_setBuf _ _ := Iff.rfl

theorem storeRead_deliverAll (ofConfig : Bool) (s : Store) :
    (readFlash (storeReader ofConfig) storeRegion s).1.log.flash = s.log.flash ∧
      ∃ b, (readFlash (storeReader ofConfig) storeRegion s).1 = (storeReader ofConfig).setBuf
        (deliverAll (Store.deliver ofConfig) (rawRecords storeRegion s.log.flash) s) b := by
  obtain ⟨hflash, ⟨-, b, hb⟩ | ⟨hbad, -⟩⟩ := readFlash_sim (storeReader_delivers ofConfig)
    (storeReader_keeps ofConfig s.log.flash) (s := s) rfl trivial
  · exact ⟨hflash, b, hb⟩
  · exact absurd trivial hbad

/-- **The write pointer a read of the store finds.** -/
theorem storeRead_snd (ofConfig : Bool) (s : Store) :
    (readFlash (storeReader ofConfig) storeRegion s).2 =
      (readFlash logReader storeRegion s.log).2 := by
  have hflash := (storeRead_deliverAll ofConfig s).1
  have hlog := (readFlash_eq s.log).choose_spec.choose_spec
  have hlog' : (readFlash logReader storeRegion s.log).1.flash = s.log.flash := by rw [hlog]
  have hword : (storeReader ofConfig).word s = s.log.flash := rfl
  have hword' : logReader.word s.log = s.log.flash := rfl
  rw [readFlash] at hflash hlog' ⊢
  rw [readFlash]
  simp only [hword, hword'] at hflash hlog' ⊢
  split
  · rename_i hnew
    rw [if_pos hnew] at hflash hlog'
    simp only [storeReader, logReader] at hflash hlog' ⊢
    rw [hflash, hlog']
  · rfl

/-- **The state `INIT0`**: the log is set up as by `boot`, and the handler gets
the configurations in it. -/
theorem init0_eq (s : Store) : ∃ b,
    init0 s = { callbacks (configsIn (rawRecords storeRegion s.log.flash)) s with
      log := setUpWrite (readFlash logReader storeRegion s.log).2.1
        (readFlash logReader storeRegion s.log).2.2
        { deliverAll App.deliver (rawRecords storeRegion s.log.flash) s.log with buf := b }
      state := .idle } := by
  obtain ⟨-, b, hb⟩ := storeRead_deliverAll true s
  refine ⟨b, ?_⟩
  rw [init0]
  dsimp only
  rw [storeRead_snd, hb, deliverAll_store]
  simp only [storeReader]

end App

end AntTracer
