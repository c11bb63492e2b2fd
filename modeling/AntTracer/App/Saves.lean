import AntTracer.App.Flow
import AntTracer.Library.Newest

/-!
# What a save leaves behind

A copy of the configuration carries a higher sequence number than all before
it, as long as the number does not run out. Until the copy is complete in its
slot, either the one before it is still there, or the log has the copy. So
start up finds the last copy saved, or the one being saved when the power was
lost (`crash_atomic`).
-/

namespace AntTracer

namespace App

/-! ## What start up finds -/

/-- `confSequence`, as a number. -/
abbrev Config.number (c : Config) : ℕ := c.confSequence.toNat

/-- The test of `ConfigInitialize` on a slot, its number aside. -/
def Config.Valid (c : Config) : Prop := c.confArray 0 ≠ erasedWord ∧ c.Sound

instance (c : Config) : Decidable c.Valid := inferInstanceAs (Decidable (_ ∧ _))

/-- What the slots read as. -/
def slotConfigs (flash : ℕ → Word) : List Config := (List.range configSlots).map (slotConfig flash)

theorem mem_slotConfigs {flash : ℕ → Word} {c : Config} :
    c ∈ slotConfigs flash ↔ ∃ i < configSlots, slotConfig flash i = c := by
  simp only [slotConfigs, List.mem_map, List.mem_range]

/-- `ConfigInitialize` keeps the newest. -/
theorem configInitialize_config (s : Store) : (configInitialize s).config =
    (slotConfigs s.log.flash).foldl (Newest.keep Config.number Config.Valid)
    (configDefault s.config) := by
  rw [slotConfigs, List.foldl_map, configInitialize]
  dsimp only
  congr 1
  funext c i
  refine if_congr ⟨fun h => ⟨h.2.2, h.1, h.2.1⟩, fun h => ⟨h.2.1, h.2.2, h.1⟩⟩ rfl rfl

/-- And so does `StoreCallbackConfiguration`. -/
theorem newer_eq : newer = Newest.keep Config.number Config.Sound := by
  funext c cf
  exact if_congr Iff.rfl rfl rfl

theorem startUp_config (s : Store) : (startUp s).config =
    (slotConfigs s.log.flash).foldl (Newest.keep Config.number Config.Valid)
      (configDefault Config.zero) :=
  configInitialize_config (powerOff s)

/-- **What start up leaves in `Config`.** -/
theorem boot_config (s : Store) : s.boot.config =
    (configsIn (rawRecords storeRegion s.log.flash)).foldl (Newest.keep Config.number Config.Sound)
      (startUp s).config := by
  obtain ⟨b, hinit⟩ := init0_eq (startUp s)
  obtain ⟨timer, flag, saving, requests, hback⟩ :=
    callbacks_eq (configsIn (rawRecords storeRegion (startUp s).log.flash)) (startUp s)
  change (App.init0 (startUp s)).config = _
  rw [hinit, hback, newer_eq]
  rfl

/-- The default has number one. -/
theorem number_default : (configDefault Config.zero).number = 1 := by decide

/-- **The newest configuration is loaded.** -/
theorem boot_config_eq {s : Store} {m : Config} (hm : 1 < m.number)
    (hfound : (m ∈ slotConfigs s.log.flash ∧ m.Valid) ∨
      (m ∈ configsIn (rawRecords storeRegion s.log.flash) ∧ m.Sound))
    (hslots : ∀ c ∈ slotConfigs s.log.flash, c.Valid → c = m ∨ c.number < m.number)
    (hlog : ∀ c ∈ configsIn (rawRecords storeRegion s.log.flash), c.Sound →
      c = m ∨ c.number < m.number) : s.boot.config = m := by
  have hdefault : (configDefault Config.zero).number < m.number := by rw [number_default]; exact hm
  rw [boot_config, startUp_config]
  have hold : (slotConfigs s.log.flash).foldl (Newest.keep Config.number Config.Valid)
      (configDefault Config.zero) = m ∨
      ((slotConfigs s.log.flash).foldl (Newest.keep Config.number Config.Valid)
        (configDefault Config.zero)).number < m.number := by
    rcases @Newest.foldl_keep_mem _ _ _ Config.number Config.Valid _
      (slotConfigs s.log.flash) (configDefault Config.zero) with h | ⟨h, hok⟩
    · rw [h]
      exact Or.inr hdefault
    · exact hslots _ h hok
  refine Newest.foldl_keep_eq ?_ hold hlog
  rcases hfound with ⟨h, hok⟩ | ⟨h, hok⟩
  · exact Or.inl (Newest.foldl_keep_eq (Or.inr ⟨h, hok⟩) (Or.inr hdefault) hslots)
  · exact Or.inr ⟨h, hok⟩

/-! ## Copies in the log -/

/-- A record with the configuration is complete, and no word of it erased. -/
def Logged (l : Log) (c : Config) : Prop :=
  ∃ r ∈ l.records, configIn r.words = some c ∧ r.status = .completed ∧ r.erased = false

/-- **What the log has is read back.** -/
theorem Linked.configsIn_kept {t : LogTape} {spare : List Word} {flash : ℕ → Word}
    {rs : List Appended}
    (hd : Disk t spare flash) (h : Linked t rs) {r : Appended} (hr : r ∈ rs) {c : Config}
    (hc : configIn r.words = some c) (hstatus : r.status = .completed)
    (herased : r.erased = false) :
    c ∈ configsIn (rawRecords storeRegion flash) := by
  obtain ⟨i, hi⟩ := List.mem_iff_getElem?.1 hr
  obtain ⟨⟨o, ws⟩, he, rfl⟩ := List.mem_filterMap.1 (h.kept i r hi hstatus herased)
  obtain ⟨u, h₁, h₂, hu⟩ := mem_contents.1 he
  obtain ⟨r', hr', rfl, -⟩ := h.whole u h₁ h₂ i ws hu
  obtain rfl : r = r' := Option.some.inj (hi.symm.trans hr')
  rw [hd.rawRecords_eq]
  exact List.mem_filterMap.2 ⟨r.words, List.mem_map.2 ⟨_, he, rfl⟩, hc⟩

section Reading

variable {s : Store}

theorem Sound.read_mem (h : Sound s) (hadv : s.log.advances < 2 ^ 26 - 1) {c : Config}
    (hc : c ∈ configsIn (rawRecords storeRegion s.log.flash)) :
    ∃ ws ∈ s.log.words, configIn ws = some c := by
  obtain ⟨t, spare, hdisk, hlinked, -⟩ := (h.off hadv).tape
  obtain ⟨r, hr, hconf⟩ := hlinked.configsIn_mem hdisk c hc
  refine ⟨r.words, ?_, hconf⟩
  rw [Log.words, ← words_noteStatus .cut]
  exact List.mem_map_of_mem hr

theorem Sound.read_logged (h : Sound s) (hadv : s.log.advances < 2 ^ 26 - 1) {c : Config}
    (hc : Logged s.log c) : c ∈ configsIn (rawRecords storeRegion s.log.flash) := by
  obtain ⟨t, spare, hdisk, hlinked, -⟩ := (h.off hadv).tape
  obtain ⟨r, hr, hconf, hstatus, herased⟩ := hc
  refine hlinked.configsIn_kept hdisk (List.mem_map.2 ⟨r, hr, ?_⟩) hconf hstatus herased
  exact if_neg (by rw [hstatus]; nofun)

end Reading

/-! ## A copy on its way to the log -/

/-- `wrGo` is at a record with the configuration. -/
def Copied (l : Log) (c : Config) : Prop :=
  ∃ rs r, l.records = rs ++ [r] ∧ configIn r.words = some c ∧ r.status = .writing ∧ r.erased = false

/-- What a call of `wrGo` does to the history: the record is written on, or
completed. -/
def Recorded (rs : List Appended) (r : Log × Bool) : Prop :=
  (r.2 = true ∧ (r.1.records = rs ∨ ∃ a, r.1.records = noteStart a rs)) ∨
    (r.2 = false ∧ r.1.records = noteStatus .completed rs)

section Copied

variable {l : Log} {c : Config}

theorem recorded_wrWrite (ptr cnt : ℕ) : Recorded l.records (wrWrite ptr cnt l) := by
  unfold wrWrite
  split
  · exact Or.inr ⟨rfl, rfl⟩
  · refine Or.inl ⟨rfl, Or.inr ⟨ptr, ?_⟩⟩
    change noteStart ptr (Log.records (if l.needSeq = true then wrSequence l else l)) = _
    split <;> rfl

theorem recorded_wrErase (ptr pe remain cnt : ℕ) :
    Recorded l.records (wrErase ptr pe remain cnt l) := by
  unfold wrErase
  split
  · dsimp only
    generalize (if pe ≥ storeEnd then storeStart else pe) = next
    split
    · exact Or.inl ⟨rfl, Or.inl rfl⟩
    split
    · exact recorded_wrWrite
        (l := { l with currentWrite := next, needSeq := true, wrState := .write1 }) _ _
    · exact recorded_wrWrite (l := { l with needSeq := true, wrState := .write1 }) _ _
  · exact recorded_wrWrite (l := { l with wrState := .write1 }) _ _

theorem recorded_wrGo (h : (l.wrState = .idle ∧ l.buf.bufferIndex + 1 ≤ bufferSize) ∨
    l.wrState = .erase1 ∨ l.wrState = .write1) : Recorded l.records (wrGo l) := by
  unfold wrGo
  rcases h with ⟨h, hle⟩ | h | h <;> rw [h] <;> dsimp only
  · rw [if_neg (not_lt.2 hle)]
    exact recorded_wrErase (l := { l with wrState := .erase1 }) _ _ _ _
  · exact recorded_wrErase (l := { l with wrState := .erase2 }) _ _ _ _
  · exact recorded_wrWrite (l := { l with wrState := .write2 }) _ _

theorem Working.wrState (h : Working l) : l.wrState = .erase1 ∨ l.wrState = .write1 := by
  cases h with
  | erasing _ _ state => exact Or.inl state
  | writing w => exact Or.inr w.state

/-- **The copy is still being written, or it is in the log.** -/
theorem Copied.recorded (h : Copied l c) {r : Log × Bool} (hr : Recorded l.records r) :
    (r.2 = true ∧ Copied r.1 c) ∨ (r.2 = false ∧ Logged r.1 c) := by
  obtain ⟨rs, r₀, hrecords, hconf, hstatus, herased⟩ := h
  refine hr.imp (fun ⟨h₁, h₂⟩ => ⟨h₁, ?_⟩) fun ⟨h₁, h₂⟩ => ⟨h₁, ?_⟩
  · rcases h₂ with h₂ | ⟨a, h₂⟩
    · exact ⟨rs, r₀, h₂.trans hrecords, hconf, hstatus, herased⟩
    · refine ⟨noteStart a rs, { r₀ with start := some a }, ?_, hconf, hstatus, herased⟩
      rw [h₂, hrecords, noteStart, noteStart, List.map_append, List.map_cons, List.map_nil,
        if_pos hstatus]
  · refine ⟨{ r₀ with status := .completed }, ?_, hconf, rfl, herased⟩
    rw [h₂, hrecords, noteStatus, List.map_append, List.map_cons, List.map_nil, if_pos hstatus]
    exact List.mem_append_right _ (List.mem_singleton_self _)

theorem Copied.go (h : Copied l c) (hwork : Working l) :
    ((wrGo l).2 = true ∧ Copied (wrGo l).1 c) ∨ ((wrGo l).2 = false ∧ Logged (wrGo l).1 c) :=
  h.recorded (recorded_wrGo (Or.inr hwork.wrState))

/-- A record handed to `wrGo`. -/
theorem recorded_append {ty : Word} {fs : List (ℕ × Word)} (hstate : l.wrState = .idle)
    (hrec : IsRecord (recordWords ty fs l.buf)) :
    Recorded (l.records ++ [⟨recordWords ty fs l.buf, none, .writing, false⟩])
      (appendRecord ty fs l) := by
  have hlen : (wrFields fs (wrNew ty l.buf)).bufferIndex + 1 ≤ bufferSize := by
    have hshort := hrec.short
    rw [recordWords, Buffer.length_words] at hshort
    omega
  exact recorded_wrGo (l := { l with
    buf := wrFields fs (wrNew ty l.buf)
    records := l.records ++ [⟨recordWords ty fs l.buf, none, .writing, false⟩] })
      (Or.inl ⟨hstate, hlen⟩)

/-- The copy handed to `wrGo`. -/
theorem copied_append {ty : Word} {fs : List (ℕ × Word)} (hstate : l.wrState = .idle)
    (hrec : IsRecord (recordWords ty fs l.buf))
    (hconf : configIn (recordWords ty fs l.buf) = some c) :
    ((appendRecord ty fs l).2 = true ∧ Copied (appendRecord ty fs l).1 c) ∨
      ((appendRecord ty fs l).2 = false ∧ Logged (appendRecord ty fs l).1 c) :=
  Copied.recorded (l := { l with
    records := l.records ++ [⟨recordWords ty fs l.buf, none, .writing, false⟩] })
    ⟨_, _, rfl, hconf, rfl, rfl⟩ (recorded_append hstate hrec)

/-- **An event of the soft device.** -/
theorem Copied.step (h : Copied l c) (hwork : Working l) (e : SdEvent) :
    Copied (sdEvent l e) c := by
  obtain ⟨rs, r, hrecords, hconf, hstatus, herased⟩ := h
  have hsame : (sdEvent l e).records = l.records → Copied (sdEvent l e) c := fun heq =>
    ⟨rs, r, heq.trans hrecords, hconf, hstatus, herased⟩
  cases hwork with
  | @erasing t spare rs' r' b more state needSeq tail op =>
    rcases op with ⟨done, op, -⟩ | ⟨-, hsd, -⟩
    · obtain ⟨now, sd', fc, tries, heq, -⟩ := op.step e
      cases now with
      | false => exact hsame (by rw [heq]; rfl)
      | true =>
        -- the record is in no page yet
        obtain ⟨-, hr⟩ := List.append_inj' (hrecords.symm.trans b.records) rfl
        have hstart : r.start = none := by
          rw [List.singleton_inj.1 hr]
          exact b.start
        refine ⟨noteErased (64 + t.hi % storePages) rs, r, ?_, hconf, hstatus, herased⟩
        rw [heq, ← noteErased_append hstart, ← hrecords]
        rfl
    · exact hsame (by rw [sdEvent_of_none hsd])
  | writing w op =>
    rcases op with ⟨j, hj, op⟩ | ⟨-, hsd, -⟩
    · obtain ⟨flash', sd', fc, tries, written', heq, -⟩ := op.step e
      exact hsame (by rw [heq])
    · exact hsame (by rw [sdEvent_of_none hsd])

end Copied

/-! ## The invariant -/

/-- The last copy saved, or an older one. -/
def Known (last : Option Config) (c : Config) : Prop :=
  ∃ m, last = some m ∧ (c = m ∨ c.number < m.number)

/-- The sound configurations in the slots. -/
def SlotsAmong (K : Config → Prop) (flash : ℕ → Word) : Prop := ∀ c ∈ slotConfigs flash,
    c.Valid → K c

/-- Those in the log, and the copies taken since start up. -/
structure Among (K : Config → Prop) (s : Store) : Prop where
  log : ∀ ws ∈ s.log.words, ∀ c, configIn ws = some c → K c
  saves : ∀ x ∈ s.saves, K x.config

/-- The last copy saved is in a slot. -/
def InSlot (last : Option Config) (flash : ℕ → Word) : Prop :=
  ∀ m, last = some m → m ∈ slotConfigs flash ∧ m.Valid

/-- The copy that is being saved is newer than all others. -/
structure Copy (last : Option Config) (s : Store) : Prop where
  sound : s.log.staging.config.Sound
  pos : 1 < s.log.staging.config.number
  le : s.log.staging.config.number ≤ s.config.number
  newer : ∀ m, last = some m → m.number < s.log.staging.config.number
  among : Among (fun c => Known last c ∨ c = s.log.staging.config) s
  save : s.saves.getLast?.map Save.config = some s.log.staging.config

/-- **Where the last copy saved is**, and the one that is being saved. -/
inductive SaveStage (last : Option Config) (s : Store) : Prop
  /-- there is none being saved -/
  | rest (hs : s.state = .init0 ∨ s.state = .idle ∨ (s.state = .writing ∧ s.savedState = .idle))
    (among : Among (Known last) s) (slots : SlotsAmong (Known last) s.log.flash)
    (here : InSlot last s.log.flash)
  /-- it is being written to the log -/
  | logging (hs : s.state = .writing) (hsaved : s.savedState = .config1) (copy : Copy last s)
    (slots : SlotsAmong (Known last) s.log.flash) (here : InSlot last s.log.flash)
    (copied : Copied s.log s.log.staging.config)
  /-- it is in the log, and the page is going to be erased, or is being erased -/
  | logged (hs : s.state = .config1 ∨ s.state = .config2) (copy : Copy last s)
    (slots : SlotsAmong (Known last) s.log.flash) (logged : Logged s.log s.log.staging.config)
  /-- it is being written to its slot -/
  | slot {flash : ℕ → Word} {i k : ℕ} (hs : s.state = .config3) (copy : Copy last s)
    (w : WritingSlot s.log flash i k) (slots : SlotsAmong (Known last) flash)
    (here : InSlot last flash ∨ Logged s.log s.log.staging.config)

/-- **The invariant of saving.** -/
structure Secure (last : Option Config) (s : Store) : Prop where
  sound : Sound s
  flow : Flow s
  pos : 1 ≤ s.config.number
  le : ∀ m, last = some m → 1 < m.number ∧ m.number ≤ s.config.number
  stage : SaveStage last s

section Saving

variable {last : Option Config} {s s' : Store} {K : Config → Prop}

theorem slotConfigs_congr {flash flash' : ℕ → Word}
    (h : ∀ a, configStart ≤ a → a < configStart + pageWords → flash' a = flash a) :
    slotConfigs flash' = slotConfigs flash :=
  List.map_congr_left fun _ hi => slotConfig_congr (List.mem_range.1 hi) h

theorem PageBlank.slotsAmong {flash : ℕ → Word} (h : PageBlank flash) : SlotsAmong K flash := by
  rintro c hc ⟨hfirst, -⟩
  obtain ⟨i, hi, rfl⟩ := mem_slotConfigs.1 hc
  obtain ⟨h₁, h₂⟩ := slotAddr_lt hi (j := 0) (by decide)
  exact absurd (h _ h₁ h₂) hfirst

theorem Among.congr (h : Among K s) (hwords : s'.log.words = s.log.words)
    (hsaves : s'.saves = s.saves) :
    Among K s' :=
  ⟨by rw [hwords]; exact h.log, by rw [hsaves]; exact h.saves⟩

theorem Copy.congr (h : Copy last s) (hstaging : s'.log.staging.config = s.log.staging.config)
    (hwords : s'.log.words = s.log.words) (hsaves : s'.saves = s.saves)
    (hconfig : s.config.number ≤ s'.config.number) : Copy last s' := by
  refine ⟨?_, ?_, ?_, ?_, ?_, ?_⟩
  · rw [hstaging]
    exact h.sound
  · rw [hstaging]
    exact h.pos
  · rw [hstaging]
    exact h.le.trans hconfig
  · rw [hstaging]
    exact h.newer
  · rw [hstaging]
    exact h.among.congr hwords hsaves
  · rw [hstaging, hsaves]
    exact h.save

/-- Requests and time change nothing of it. -/
theorem SaveStage.congr (h : SaveStage last s) (hstate : s'.state = s.state)
    (hsaved : s'.savedState = s.savedState) (hsaves : s'.saves = s.saves)
    (hflash : s'.log.flash = s.log.flash) (hrecords : s'.log.records = s.log.records)
    (hstaging : s'.log.staging.config = s.log.staging.config)
    (hslot : ∀ flash i k, WritingSlot s.log flash i k → WritingSlot s'.log flash i k)
    (hconfig : s.config.number ≤ s'.config.number) : SaveStage last s' := by
  have hwords : s'.log.words = s.log.words := congrArg (List.map Appended.words) hrecords
  have hlogged : ∀ c, Logged s.log c → Logged s'.log c := by
    intro c hc
    unfold Logged
    rw [hrecords]
    exact hc
  cases h with
  | rest hs among slots here =>
    exact .rest (by rw [hstate, hsaved]; exact hs) (among.congr hwords hsaves)
      (by rw [hflash]; exact slots) (by rw [hflash]; exact here)
  | logging hs hs' copy slots here copied =>
    refine .logging (hstate.trans hs) (hsaved.trans hs') (copy.congr hstaging hwords hsaves hconfig)
      (by rw [hflash]; exact slots) (by rw [hflash]; exact here) ?_
    rw [hstaging]
    unfold Copied
    rw [hrecords]
    exact copied
  | logged hs copy slots logged =>
    exact .logged (by rw [hstate]; exact hs) (copy.congr hstaging hwords hsaves hconfig)
      (by rw [hflash]; exact slots) (by rw [hstaging]; exact hlogged _ logged)
  | slot hs copy w slots here =>
    exact .slot (hstate.trans hs) (copy.congr hstaging hwords hsaves hconfig) (hslot _ _ _ w) slots
      (here.imp id fun hl => by rw [hstaging]; exact hlogged _ hl)

/-! ## Events of the soft device -/

/-- While the page is being erased, the log stays. -/
theorem ErasingPage.kept {l : Log} (h : ErasingPage l) (e : SdEvent) :
    ((sdEvent l e).flash = l.flash ∨ PageBlank (sdEvent l e).flash) ∧
      ∀ c, Logged l c → Logged (sdEvent l e) c := by
  obtain ⟨⟨t, spare, hidle⟩, -, ⟨done, op, -⟩ | ⟨-, hsd, -⟩⟩ := h
  · obtain ⟨now, sd', fc, tries, heq, -⟩ := op.step e
    rw [heq]
    cases now with
    | false => exact ⟨Or.inl rfl, fun c hc => hc⟩
    | true =>
      refine ⟨Or.inr (pageBlank_wipe l.flash), ?_⟩
      rintro c ⟨r, hr, hconf, hstatus, herased⟩
      -- no record lies in the configuration page
      have htouch : ¬ r.Touches 126 := by
        rintro ⟨a, ha, -, hlt⟩
        have := (hidle.linked.within r hr a ha).2
        simp only [storeEnd] at this
        omega
      exact ⟨r, List.mem_map.2 ⟨r, hr, if_neg htouch⟩, hconf, hstatus, herased⟩
  · rw [sdEvent_of_none hsd]
    exact ⟨Or.inl rfl, fun c hc => hc⟩

theorem WritingSlot.records {l : Log} {flash : ℕ → Word} {i k : ℕ} (h : WritingSlot l flash i k)
    (e : SdEvent) : (sdEvent l e).records = l.records := by
  obtain ⟨j, -, op⟩ | ⟨-, hsd, -⟩ := h.op
  · obtain ⟨flash', sd', fc, tries, written', heq, -⟩ := op.step e
    rw [heq]
  · rw [sdEvent_of_none hsd]

/-- **An event of the soft device.** -/
theorem Secure.device (h : Secure last s) (e : SdEvent) :
    Secure last { s with log := sdEvent s.log e } := by
  obtain ⟨flash', sd', fc, tries, rs', written', refused', hbeside⟩ := sdEvent_beside s.log e
  have hstaging : (sdEvent s.log e).staging = s.log.staging := by rw [hbeside]
  have hconfig : (sdEvent s.log e).staging.config = s.log.staging.config := by rw [hstaging]
  have hwords := sdEvent_words s.log e
  have hcopy : Copy last s → Copy last { s with log := sdEvent s.log e } := fun copy =>
    copy.congr hconfig hwords rfl le_rfl
  refine ⟨h.sound.device e, h.flow.device e, h.pos, h.le, ?_⟩
  have hfree : s.log.sd = none → SaveStage last { s with log := sdEvent s.log e } := by
    intro hsd
    rw [sdEvent_of_none hsd]
    exact h.stage
  have hpage : s.state = .writing → slotConfigs (sdEvent s.log e).flash = slotConfigs s.log.flash :=
    fun hs => slotConfigs_congr fun a ha _ => (h.sound.stage.writing hs).1.flash_config e ha
  cases h.stage with
  | rest hs among slots here =>
    rcases hs with hs | hs | hs
    · exact hfree (h.flow.free (Or.inl hs))
    · exact hfree (h.flow.free (Or.inr (Or.inl hs)))
    · refine .rest (Or.inr (Or.inr hs)) (among.congr hwords rfl) ?_ ?_
      · unfold SlotsAmong
        rw [hpage hs.1]
        exact slots
      · unfold InSlot
        rw [hpage hs.1]
        exact here
  | logging hs hsaved copy slots here copied =>
    refine .logging hs hsaved (hcopy copy) ?_ ?_ ?_
    · unfold SlotsAmong
      rw [hpage hs]
      exact slots
    · unfold InSlot
      rw [hpage hs]
      exact here
    · dsimp only
      rw [hconfig]
      exact copied.step (h.sound.stage.writing hs).1 e
  | logged hs copy slots logged =>
    rcases hs with hs | hs
    · exact hfree (h.flow.free (Or.inr (Or.inr hs)))
    · obtain ⟨hflash, hlog⟩ := (h.sound.stage.erasing hs).1.kept e
      refine .logged (Or.inr hs) (hcopy copy) ?_ ?_
      · rcases hflash with hflash | hblank
        · dsimp only
          rw [hflash]
          exact slots
        · exact hblank.slotsAmong
      · dsimp only
        rw [hconfig]
        exact hlog _ logged
  | slot hs copy w slots here =>
    obtain ⟨k', w'⟩ := w.step e
    refine .slot hs (hcopy copy) w' slots (here.imp id fun hl => ?_)
    dsimp only
    rw [hconfig]
    unfold Logged
    rw [w.records e]
    exact hl

/-! ## Rounds -/

theorem SaveStage.of_rest (h : SaveStage last s) (hs : s.state = .init0 ∨ s.state = .idle) :
    Among (Known last) s ∧ SlotsAmong (Known last) s.log.flash ∧ InSlot last s.log.flash := by
  cases h with
  | rest _ among slots here => exact ⟨among, slots, here⟩
  | logging hs' | slot hs' =>
    rw [hs'] at hs
    rcases hs with hs | hs <;> cases hs
  | logged hs' => rcases hs with hs | hs <;> rw [hs] at hs' <;> rcases hs' with hs' |
    hs' <;> cases hs'

/-- In `WRITING`, either a copy for the log is being written or another
record. -/
theorem SaveStage.of_writing (h : SaveStage last s) (hs : s.state = .writing) :
    (SlotsAmong (Known last) s.log.flash ∧ InSlot last s.log.flash) ∧
      ((s.savedState = .idle ∧ Among (Known last) s) ∨
        (s.savedState = .config1 ∧ Copy last s ∧ Copied s.log s.log.staging.config)) := by
  cases h with
  | rest hs' among slots here =>
    rcases hs' with hs' | hs' | ⟨-, hsaved⟩
    · rw [hs] at hs'
      cases hs'
    · rw [hs] at hs'
      cases hs'
    · exact ⟨⟨slots, here⟩, Or.inl ⟨hsaved, among⟩⟩
  | logging _ hsaved copy slots here copied => exact ⟨⟨slots, here⟩, Or.inr ⟨hsaved, copy, copied⟩⟩
  | logged hs' =>
    rw [hs] at hs'
    rcases hs' with hs' | hs' <;> cases hs'
  | slot hs' =>
    rw [hs] at hs'
    cases hs'

/-- In `CONFIG1` and `CONFIG2` the copy is in the log. -/
theorem SaveStage.of_erasing (h : SaveStage last s) (hs : s.state = .config1 ∨ s.state = .config2) :
    Copy last s ∧ SlotsAmong (Known last) s.log.flash ∧ Logged s.log s.log.staging.config := by
  cases h with
  | logged _ copy slots logged => exact ⟨copy, slots, logged⟩
  | rest hs' =>
    rcases hs with hs | hs <;> rw [hs] at hs' <;> rcases hs' with hs' | hs' | ⟨hs', -⟩ <;> cases hs'
  | logging hs' | slot hs' =>
    rw [hs'] at hs
    rcases hs with hs | hs <;> cases hs

/-- In `CONFIG3` the copy is being written to its slot. -/
theorem SaveStage.of_config3 (h : SaveStage last s) (hs : s.state = .config3) :
    Copy last s ∧ ∃ flash i k, WritingSlot s.log flash i k ∧ SlotsAmong (Known last) flash ∧
      (InSlot last flash ∨ Logged s.log s.log.staging.config) := by
  cases h with
  | slot _ copy w slots here => exact ⟨copy, _, _, _, w, slots, here⟩
  | rest hs' =>
    rw [hs] at hs'
    rcases hs' with hs' | hs' | ⟨hs', -⟩ <;> cases hs'
  | logging hs' =>
    rw [hs] at hs'
    cases hs'
  | logged hs' =>
    rw [hs] at hs'
    rcases hs' with hs' | hs' <;> cases hs'

/-- The number of the next copy. -/
theorem number_copyConfig (hne : s.config.confSequence ≠ 65535#16) :
    (copyConfig s).config.number = s.config.number + 1 ∧
      (copyConfig s).log.staging.config.number = s.config.number + 1 := by
  have hlt : s.config.confSequence.toNat < 2 ^ 16 := s.config.confSequence.isLt
  have hne' : s.config.confSequence.toNat ≠ 65535 := fun heq => hne (BitVec.eq_of_toNat_eq heq)
  have hadd : (s.config.confSequence + 1#16).toNat = s.config.confSequence.toNat + 1 := by
    rw [BitVec.toNat_add]
    exact Nat.mod_eq_of_lt (by simp only [BitVec.toNat_ofNat]; omega)
  refine ⟨?_, ?_⟩
  · rw [Config.number, copyConfig, Config.confSequence_setSequence, hadd]
  · rw [Config.number, copyConfig]
    dsimp only
    rw [Config.confSequence_setCRC, Config.confSequence_setSequence, hadd]

/-- **A new copy is newer than all before it.** -/
theorem Secure.copy (h : Secure last s) (among : Among (Known last) s)
    (hne : s.config.confSequence ≠ 65535#16) : Copy last (copyConfig (takeConfig s)) := by
  obtain ⟨hconfig, hcopy⟩ := number_copyConfig (s := takeConfig s) hne
  refine ⟨sound_copyConfig _, ?_, ?_, fun m hm => ?_, ⟨fun ws hws c hc => ?_, fun x hx => ?_⟩, ?_⟩
  · rw [hcopy]
    exact Nat.lt_succ_of_le h.pos
  · rw [hcopy, hconfig]
  · rw [hcopy]
    exact Nat.lt_succ_of_le (h.le m hm).2
  · exact Or.inl (among.log ws hws c hc)
  · rcases List.mem_append.1 hx with hx | hx
    · exact Or.inl (among.saves x hx)
    · rw [List.mem_singleton.1 hx]
      exact Or.inr rfl
  · simp [copyConfig]

theorem Copy.known (h : Copy last s) {c : Config} (hc : Known last c ∨ c = s.log.staging.config) :
    Known (some s.log.staging.config) c := by
  refine ⟨_, rfl, ?_⟩
  rcases hc with ⟨m, hm, rfl | hlt⟩ | rfl
  · exact Or.inr (h.newer _ hm)
  · exact Or.inr (hlt.trans (h.newer m hm))
  · exact Or.inl rfl

/-- The copy in its slot. -/
theorem Copy.completed (h : Copy last s) {flash : ℕ → Word} {i : ℕ}
    (hflash : s.log.flash = burn flash (slotAddr i) s.log.staging.config.words)
    (slots : SlotsAmong (Known last) flash) :
    SlotsAmong (Known (some s.log.staging.config)) s.log.flash := by
  intro c hc hvalid
  obtain ⟨j, hj, rfl⟩ := mem_slotConfigs.1 hc
  refine h.known ?_
  by_cases hne : j = i
  · subst hne
    rw [hflash, slotConfig_burn]
    exact Or.inr rfl
  · have hother := slotConfig_burn_other flash hne s.log.staging.config configWords
    rw [List.take_of_length_le (Config.length_words _).le, ← hflash] at hother
    rw [hother] at hvalid ⊢
    exact Or.inl (slots _ (mem_slotConfigs.2 ⟨j, hj, rfl⟩) hvalid)

/-- A copy handed to `wrGo`. -/
theorem Copy.handed (h : Copy last s) {r : Log × Bool} (hsaved : s.savedState = .config1)
    (hstaging : r.1.staging = s.log.staging)
    (hwords : ∀ ws ∈ r.1.words, ws ∈ s.log.words ∨ configIn ws = some s.log.staging.config)
    (hflash : r.1.flash = s.log.flash) (slots : SlotsAmong (Known last) s.log.flash)
    (here : InSlot last s.log.flash)
    (hr : (r.2 = true ∧ Copied r.1 s.log.staging.config) ∨
      (r.2 = false ∧ Logged r.1 s.log.staging.config)) : SaveStage last (handed r s) := by
  have hlog : (App.handed r s).log = r.1 := rfl
  have hcopy : Copy last (App.handed r s) := by
    refine ⟨?_, ?_, ?_, ?_, ?_, ?_⟩ <;> rw [hlog, hstaging]
    · exact h.sound
    · exact h.pos
    · exact h.le
    · exact h.newer
    · refine ⟨fun ws hws c hc => ?_, h.among.saves⟩
      rcases hwords ws hws with hws | hcopy
      · exact h.among.log ws hws c hc
      · rw [hcopy] at hc
        exact Or.inr (Option.some.inj hc).symm
    · exact h.save
  have hslots : SlotsAmong (Known last) (App.handed r s).log.flash := by
    rw [hlog, hflash]
    exact slots
  have hconfig : (App.handed r s).log.staging.config = s.log.staging.config :=
    by rw [hlog, hstaging]
  rcases hr with ⟨hr, hc⟩ | ⟨hr, hc⟩
  · refine .logging (if_pos hr) hsaved hcopy hslots ?_ (by rw [hconfig]; exact hc)
    rw [hlog, hflash]
    exact here
  · have hs : (App.handed r s).state = .config1 :=
      (if_neg (by rw [hr]; exact Bool.false_ne_true)).trans hsaved
    exact .logged (Or.inl hs) hcopy hslots (by rw [hconfig]; exact hc)

/-- A record of a software update handed to `wrGo`. -/
theorem rest_handed {r : Log × Bool} (hsaved : s.savedState = .idle) (among : Among (Known last) s)
    (hwords : ∀ ws ∈ r.1.words, ws ∈ s.log.words ∨ configIn ws = none)
    (hflash : r.1.flash = s.log.flash)
    (slots : SlotsAmong (Known last) s.log.flash) (here : InSlot last s.log.flash) :
    SaveStage last (handed r s) := by
  refine .rest (Or.inr ?_) ⟨fun ws hws c hc => ?_, among.saves⟩ (hflash ▸ slots) (hflash ▸ here)
  · rcases r with ⟨l, _ | _⟩
    · exact Or.inl hsaved
    · exact Or.inr ⟨rfl, hsaved⟩
  · rcases hwords ws hws with hws | hnone
    · exact among.log ws hws c hc
    · rw [hnone] at hc
      cases hc

/-- `INIT0` loads a newer configuration or none. -/
theorem number_init0 (s : Store) : s.config.number ≤ (init0 s).config.number := by
  obtain ⟨b, hinit⟩ := init0_eq s
  obtain ⟨timer, flag, saving, requests, hback⟩ :=
    callbacks_eq (configsIn (rawRecords storeRegion s.log.flash)) s
  rw [hinit, hback, newer_eq]
  exact Newest.key_le_foldl_keep

theorem init0_history (s : Store) : (init0 s).saves = s.saves ∧ (init0 s).saved = s.saved ∧
    (init0 s).log.flash = s.log.flash ∧ (init0 s).log.words = s.log.words := by
  obtain ⟨b, hinit⟩ := init0_eq s
  obtain ⟨timer, flag, saving, requests, hback⟩ :=
    callbacks_eq (configsIn (rawRecords storeRegion s.log.flash)) s
  obtain ⟨st, hst⟩ := deliverAll_eq (rawRecords storeRegion s.log.flash) s.log
  rw [hinit, hback, hst, setUpWrite]
  split <;> exact ⟨rfl, rfl, rfl, rfl⟩

/-- A save is complete. -/
structure Saved (s : Store) (c : Config) : Prop where
  saved : s.saved = some c
  secure : Secure (some c) s

/-- **A copy is taken**: the configuration counts on, and nothing is lost. -/
theorem Secure.take (h : Secure last s) (hs : s.state = .idle)
    (hne : s.config.confSequence ≠ 65535#16) :
    Copy last (copyConfig (takeConfig s)) ∧ 1 ≤ (copyConfig (takeConfig s)).config.number ∧
      ∀ m, last = some m → 1 < m.number ∧ m.number ≤ (copyConfig (takeConfig s)).config.number := by
  obtain ⟨among, -, -⟩ := h.stage.of_rest (Or.inr hs)
  obtain ⟨hnum, -⟩ := number_copyConfig (s := takeConfig s) hne
  refine ⟨h.copy among hne, hnum.ge.trans' (Nat.le_add_left 1 _), fun m hm => ⟨(h.le m hm).1, ?_⟩⟩
  exact (h.le m hm).2.trans (hnum.ge.trans' (Nat.le_succ _))

/-- The write of the copy to its slot. -/
theorem SaveStage.writeSlot {i : ℕ} (copy : Copy last s) (hfree : ∃ t spare, Idle s.log t spare)
    (hsd : s.log.sd = none) (hi : i < configSlots) (hslots : Slots s.log.flash)
    (hblank : ∀ j < configWords, s.log.flash (slotAddr i + j) = erasedWord)
    (slots : SlotsAmong (Known last) s.log.flash)
    (here : InSlot last s.log.flash ∨ Logged s.log s.log.staging.config) :
    SaveStage last (App.writeSlot i s) :=
  .slot rfl (copy.congr rfl rfl rfl le_rfl)
    (writingSlot_flashWrite hfree hsd hi hslots hblank) slots here

/-- The copy handed to `wrGo`, for want of a free slot. -/
theorem SaveStage.logCopy (copy : Copy last s) (hidle : s.log.wrState = .idle)
    (slots : SlotsAmong (Known last) s.log.flash) (here : InSlot last s.log.flash)
    (hsaved : s.savedState = .config1) :
    SaveStage last
      (handed (appendRecord rtConfig (configFields s.log.staging.config) s.log) s) := by
  have hrec := (Rec.config s.log.staging.config).isRecord s.log.buf
  have hconf := configIn_config copy.sound s.log.buf
  obtain ⟨hflash, hstaging, -, hwords⟩ :=
    appendRecord_kept rtConfig (configFields s.log.staging.config) s.log
  refine copy.handed hsaved hstaging (fun ws hws => ?_) hflash slots here
    (copied_append hidle hrec hconf)
  rw [hwords] at hws
  rcases List.mem_append.1 hws with hws | hws
  · exact Or.inl hws
  · rw [List.mem_singleton.1 hws]
    exact Or.inr hconf

/-- **The write to the slot is complete**, and so is the save. -/
theorem Secure.completed (h : Secure last s) (hs : s.state = .config3) (hsd : s.log.sd = none) :
    ∃ c, s.saves.getLast?.map Save.config = some c ∧ (∀ m, some c = some m → 1 < m.number ∧
      m.number ≤ s.config.number) ∧ Among (Known (some c)) s ∧
        SlotsAmong (Known (some c)) s.log.flash ∧ InSlot (some c) s.log.flash := by
  obtain ⟨copy, flash, i, k, w, slots, -⟩ := h.stage.of_config3 hs
  obtain ⟨j, -, op⟩ | ⟨rfl, -, -⟩ := w.op
  · rw [op.sd] at hsd
    cases hsd
  have hflash := w.flash_eq
  rw [List.take_of_length_le (Config.length_words _).le] at hflash
  refine ⟨s.log.staging.config, copy.save, fun m hm => ?_, ⟨fun ws hws c hc => ?_, fun x hx => ?_⟩,
    copy.completed hflash slots, fun m hm => ?_⟩
  · obtain rfl := Option.some.inj hm
    exact ⟨copy.pos, copy.le⟩
  · exact copy.known (copy.among.log ws hws c hc)
  · exact copy.known (copy.among.saves x hx)
  · obtain rfl := Option.some.inj hm
    refine ⟨mem_slotConfigs.2 ⟨i, w.lt, ?_⟩, (h.sound.stage.slot hs).2.first_ne, copy.sound⟩
    rw [hflash, slotConfig_burn]

/-- **A round** keeps what was saved, or completes a save. -/
theorem Secure.round (h : Secure last s) (hround : Round s s') (hadv : s.log.advances < 2 ^ 26 - 1)
    (hne : s.state = .idle → s.opFlag.config = true ∧ timeout s →
    s.config.confSequence ≠ 65535#16) :
    (s'.saved = s.saved ∧ Secure last s') ∨ ∃ c, Saved s' c := by
  have hsound := h.sound.round hround hadv
  have hflow := (h.flow.round hround).2
  have hsd := h.flow.round_free hround
  cases hround with
  | init0 hs =>
    obtain ⟨hsaves, hsaved, hflash, hwords⟩ := init0_history s
    obtain ⟨among, slots, here⟩ := h.stage.of_rest (Or.inl hs)
    have hle := number_init0 s
    refine Or.inl ⟨hsaved, hsound, hflow, h.pos.trans hle, fun m hm => ?_, ?_⟩
    · exact ⟨(h.le m hm).1, (h.le m hm).2.trans hle⟩
    · exact .rest (Or.inr (Or.inl rfl)) (among.congr hwords hsaves) (hflash ▸ slots) (hflash ▸ here)
  | @slot i hs hflag hi =>
    obtain ⟨-, slots, here⟩ := h.stage.of_rest (Or.inr hs)
    obtain ⟨hcopy, hpos, hle⟩ := h.take hs (hne hs hflag)
    obtain ⟨hlt, hblank⟩ := freeSlot_eq_some hi
    obtain ⟨-, hfree⟩ : Free (copyConfig (takeConfig s)).log := (h.sound.stage.free hs).copyConfig
    refine Or.inl ⟨rfl, hsound, hflow, hpos, hle, ?_⟩
    exact .writeSlot hcopy hfree hsd hlt h.sound.slots (h.sound.slots.blank hlt hblank) slots
      (Or.inl here)
  | full hs hflag hfull =>
    obtain ⟨-, slots, here⟩ := h.stage.of_rest (Or.inr hs)
    obtain ⟨hcopy, hpos, hle⟩ := h.take hs (hne hs hflag)
    obtain ⟨-, t, spare, hidle⟩ : Free (copyConfig (takeConfig s)).log :=
      (h.sound.stage.free hs).copyConfig
    refine Or.inl ⟨rfl, hsound, hflow, hpos, hle, ?_⟩
    exact .logCopy (s := { copyConfig (takeConfig s) with
        savedState := .config1
        wanted := s.wanted ++ [recordWords rtConfig
          (configFields (copyConfig (takeConfig s)).log.staging.config) s.log.buf] })
      (hcopy.congr rfl rfl rfl le_rfl) hidle.state slots here rfl
  | part p st hs hflag =>
    obtain ⟨among, slots, here⟩ := h.stage.of_rest (Or.inr hs)
    obtain ⟨hflash, -, -, hwords⟩ := appendRecord_kept p.type (p.fields s.log.staging.su) s.log
    refine Or.inl ⟨rfl, hsound, hflow, h.pos, h.le, rest_handed (s := { s with
        opFlag := p.clear s.opFlag
        state := st
        savedState := .idle
        wanted := s.wanted ++ [recordWords p.type (p.fields s.asked) s.log.buf] })
      rfl (among.congr rfl rfl) (fun ws hws => ?_) hflash slots here⟩
    rw [hwords] at hws
    rcases List.mem_append.1 hws with hws | hws
    · exact Or.inl hws
    · rw [List.mem_singleton.1 hws]
      exact Or.inr (p.configIn_words _ _)
  | go hs hfc =>
    obtain ⟨hflash, hstaging, -, hwords⟩ := wrGo_kept s.log
    refine Or.inl ⟨rfl, hsound, hflow, h.pos, h.le, ?_⟩
    obtain ⟨⟨slots, here⟩, ⟨hsaved, among⟩ | ⟨hsaved, copy, copied⟩⟩ := h.stage.of_writing hs
    · exact rest_handed hsaved among (fun ws hws => Or.inl (hwords ▸ hws)) hflash slots here
    · exact copy.handed hsaved hstaging (fun ws hws => Or.inl (hwords ▸ hws)) hflash slots here
        (copied.go (h.sound.stage.writing hs).1)
  | erase hs =>
    obtain ⟨copy, slots, logged⟩ := h.stage.of_erasing (Or.inl hs)
    refine Or.inl ⟨rfl, hsound, hflow, h.pos, h.le, ?_⟩
    exact .logged (Or.inr rfl) (copy.congr rfl rfl rfl le_rfl) slots logged
  | rewrite hs hfc =>
    obtain ⟨copy, slots, logged⟩ := h.stage.of_erasing (Or.inr hs)
    refine Or.inl ⟨rfl, hsound, hflow, h.pos, h.le, ?_⟩
    obtain ⟨⟨hidle, hslots, ⟨done, op, -⟩ | ⟨hblank, -, -⟩⟩, -⟩ := h.sound.stage.erasing hs
    · rw [op.sd] at hsd
      cases hsd
    · exact .writeSlot copy hidle hsd (by decide) h.sound.slots
        (hblank.slots.blank (by decide) (hblank _ le_rfl (by decide))) slots (Or.inr logged)
  | saved hs hfc =>
    obtain ⟨c, hsave, hle, among, slots, here⟩ := h.completed hs hsd
    refine Or.inr ⟨c, hsave, hsound, hflow, h.pos, hle, ?_⟩
    exact .rest (Or.inr (Or.inl rfl)) (among.congr rfl rfl) slots here

/-! ## Passes -/

/-- A pass comes to the state `IDLE`, with a save due. -/
def Due (s : Store) : Prop :=
  (s.state = .idle ∨ (s.state = .writing ∧ s.savedState = .idle ∧ s.log.flashComplete = true ∧
    (wrGo s.log).2 = false)) ∧ s.opFlag.config = true ∧ timeout s

instance (s : Store) : Decidable (Due s) := inferInstanceAs (Decidable (_ ∧ _))

/-- **The sequence number runs out.** -/
def Wraps (s : Store) : SystemEvent → Prop
  | .event .loop => Due s ∧ s.config.confSequence = 65535#16
  | .event .factory => s.config.confSequence = 65535#16
  | _ => False

instance (s : Store) : ∀ e : SystemEvent, Decidable (Wraps s e)
  | .event .loop => inferInstanceAs (Decidable (_ ∧ _))
  | .event .factory => inferInstanceAs (Decidable (_ = _))
  | .event (.device _) | .event (.tick _) | .event (.change _) | .event (.save _)
  | .event (.info _) | .event (.chunk _) | .event (.exec _) | .reboot => .isFalse not_false

/-- The last copy saved, also before the last start up. -/
abbrev lastSaved (prev : Option Config) (s : Store) : Option Config := s.saved <|> prev

/-- What holds between the rounds of a pass. -/
structure Underway (prev : Option Config) (s : Store) : Prop where
  secure : s.log.advances < 2 ^ 26 - 1 → Secure (lastSaved prev s) s
  number : Due s → s.config.confSequence ≠ 65535#16

theorem Secure.round_last {prev : Option Config} (h : Secure (lastSaved prev s) s)
    (hround : Round s s')
    (hadv : s.log.advances < 2 ^ 26 - 1)
    (hne : s.state = .idle → s.opFlag.config = true ∧ timeout s →
      s.config.confSequence ≠ 65535#16) : Secure (lastSaved prev s') s' := by
  rcases h.round hround hadv hne with ⟨hsaved, hs⟩ | ⟨c, hsaved, hs⟩
  · rw [lastSaved, hsaved]
    exact hs
  · rw [lastSaved, hsaved]
    exact hs

theorem Underway.round {prev : Option Config} (h : Underway prev s) (hflow : Flow s)
    (hs : ¬ Waits s)
    (hround : Round s s') : Underway prev s' := by
  have hsd := hflow.round_free hround
  have hidle : s.state = .idle → s.opFlag.config = true ∧ timeout s →
      s.config.confSequence ≠ 65535#16 := fun hs hdue => h.number ⟨Or.inl hs, hdue⟩
  refine ⟨fun hadv => ?_, fun hdue => ?_⟩
  · have hlt := hround.advances_le.trans_lt hadv
    exact (h.secure hlt).round_last hround hlt hidle
  cases hround with
  | init0 h₀ => exact absurd (Or.inl h₀) hs
  | rewrite h₀ => exact absurd (Or.inr (Or.inl h₀)) hs
  | saved h₀ => exact absurd (Or.inr (Or.inr h₀)) hs
  | slot | erase => rcases hdue.1 with hs' | ⟨hs', -⟩ <;> cases hs'
  | full =>
    -- the flag has been cleared
    exact absurd hdue.2.1 Bool.false_ne_true
  | part p st h₀ hflag =>
    refine hidle h₀ ⟨?_, hdue.2.2⟩
    have hconfig : (p.clear s.opFlag).config = true := hdue.2.1
    cases p <;> exact hconfig
  | go h₀ hfc =>
    have hsaved := hflow.resting.savedState h₀
    rcases (handed_wrGo hsd).2 with ⟨hr, hsd', hcalled⟩ | ⟨hr, -⟩
    · -- an operation was started
      have hbusy : (wrGo s.log).1.flashComplete = false := (hcalled.waiting hsd').busy hsd'
      have hs' : (handed (wrGo s.log) s).state = .writing := if_pos hr
      rcases hdue.1 with hs'' | ⟨-, -, hfc', -⟩
      · rw [hs'] at hs''
        cases hs''
      · exact absurd (hbusy.symm.trans hfc') Bool.false_ne_true
    · have hs' : (handed (wrGo s.log) s).state = s.savedState :=
        if_neg (by rw [hr]; exact Bool.false_ne_true)
      refine h.number ⟨Or.inr ⟨h₀, ?_, hfc, hr⟩, hdue.2⟩
      rcases hdue.1 with hs'' | ⟨hs'', -⟩
      · exact hs'.symm.trans hs''
      · rw [hs'] at hs''
        rcases hsaved with hsaved | hsaved <;> rw [hsaved] at hs'' <;> cases hs''

/-- **What holds between the passes**, as long as there are few page
advances. -/
structure Tracked (prev : Option Config) (s : Store) : Prop where
  flow : Flow s
  secure : s.log.advances < 2 ^ 26 - 1 → Secure (lastSaved prev s) s

theorem Tracked.loop {prev : Option Config} (h : Tracked prev s)
    (hwrap : ¬ Wraps s (.event .loop)) :
    Tracked prev (storeSuperLoop s).1 := by
  refine ⟨h.flow.loop, h.flow.pass (Underway prev)
    (fun s => s.log.advances < 2 ^ 26 - 1 → Secure (lastSaved prev s) s)
    (fun _ => ⟨h.secure, fun hdue hnum => hwrap ⟨hdue, hnum⟩⟩) h.secure
    (fun s' hs hround hadv => ?_)
    (fun _ _ hflow hs hunder hround => hunder.round hflow hs hround) fun _ hunder => hunder.secure⟩
  have hlt := hround.advances_le.trans_lt hadv
  refine (h.secure hlt).round_last hround hlt fun hidle => ?_
  rcases hs with hs | hs | hs <;> rw [hs] at hidle <;> cases hidle

/-! ## Requests and power losses -/

theorem Secure.congr (h : Secure last s) (hsound : Sound s') (hflow : Flow s')
    (hstate : s'.state = s.state) (hsaved : s'.savedState = s.savedState)
    (hsaves : s'.saves = s.saves)
    (hflash : s'.log.flash = s.log.flash) (hrecords : s'.log.records = s.log.records)
    (hstaging : s'.log.staging.config = s.log.staging.config)
    (hslot : ∀ flash i k, WritingSlot s.log flash i k → WritingSlot s'.log flash i k)
    (hconfig : s.config.number ≤ s'.config.number) : Secure last s' :=
  ⟨hsound, hflow, h.pos.trans hconfig, fun m hm => ⟨(h.le m hm).1, (h.le m hm).2.trans hconfig⟩,
    h.stage.congr hstate hsaved hsaves hflash hrecords hstaging hslot hconfig⟩

theorem number_configDefault {c : Config} (hne : c.confSequence ≠ 65535#16) :
    c.number ≤ (configDefault c).number := by
  have hlt : c.confSequence.toNat < 2 ^ 16 := c.confSequence.isLt
  have hne' : c.confSequence.toNat ≠ 65535 := fun heq => hne (BitVec.eq_of_toNat_eq heq)
  rw [Config.number, Config.number, configDefault, Config.confSequence_setSequence,
    BitVec.toNat_add, Nat.mod_eq_of_lt]
  · exact Nat.le_add_right _ _
  · simp only [BitVec.toNat_ofNat]
    omega

/-- A save is in progress. -/
def InSave (s : Store) : Prop :=
  s.state = .config1 ∨ s.state = .config2 ∨ s.state = .config3 ∨
    (s.state = .writing ∧ s.savedState = .config1)

instance (s : Store) : Decidable (InSave s) := inferInstanceAs (Decidable (_ ∨ _))

theorem Secure.at_rest (h : Secure last s) (hrest : ¬ InSave s) :
    Among (Known last) s ∧ SlotsAmong (Known last) s.log.flash ∧ InSlot last s.log.flash := by
  cases h.stage with
  | rest _ among slots here => exact ⟨among, slots, here⟩
  | logging hs hsaved => exact absurd (Or.inr (Or.inr (Or.inr ⟨hs, hsaved⟩))) hrest
  | logged hs => exact absurd (hs.imp id Or.inl) hrest
  | slot hs => exact absurd (Or.inr (Or.inr (Or.inl hs))) hrest

/-- **A power loss between two saves.** -/
theorem Secure.reboot (h : Secure last s) (hadv : s.log.advances < 2 ^ 26 - 1)
    (hrest : ¬ InSave s) :
    Secure last (startUp s) := by
  obtain ⟨among, slots, here⟩ := h.at_rest hrest
  have hwords : (startUp s).log.words = s.log.words := words_noteStatus .cut s.log.records
  refine ⟨h.sound.reboot hadv, flow_startUp s, ?_, fun m hm => ⟨(h.le m hm).1, ?_⟩, ?_⟩
  · rw [startUp_config]
    exact number_default.ge.trans Newest.key_le_foldl_keep
  · rw [startUp_config]
    exact Newest.key_le_foldl_keep_of_mem (here m hm).1 (here m hm).2
  · exact .rest (Or.inl rfl) ⟨by rw [hwords]; exact among.log, nofun⟩ slots here

theorem Secure.event (h : Secure last s) {e : StoreEvent} (he : e ≠ .loop)
    (hwrap : ¬ Wraps s (.event e)) (hsound : Sound (storeStep s e)) :
    Secure last (storeStep s e) := by
  have hflow : Flow (storeStep s e) := h.flow.step (.event e)
  cases e with
  | loop => exact absurd rfl he
  | device e => exact h.device e
  | tick | save => exact h.congr hsound hflow rfl rfl rfl rfl rfl rfl (fun _ _ _ hw => hw) le_rfl
  | change c =>
    refine h.congr hsound hflow rfl rfl rfl rfl rfl rfl (fun _ _ _ hw => hw) (le_of_eq ?_)
    change _ = BitVec.toNat (BitVec.setWidth 16
      (Function.update c.confArray 0 (s.config.confArray 0) 0))
    rw [Function.update_self]
    rfl
  | factory =>
    exact h.congr hsound hflow rfl rfl rfl rfl rfl rfl (fun _ _ _ hw => hw)
      (number_configDefault hwrap)
  | info | chunk | exec =>
    exact h.congr hsound hflow rfl rfl rfl rfl rfl rfl (fun _ _ _ hw => hw.setSu _) le_rfl

/-! ## What start up finds -/

/-- **Between two saves**, the last copy saved. -/
theorem Secure.boot (h : Secure last s) (hadv : s.log.advances < 2 ^ 26 - 1) (hrest : ¬ InSave s)
    {m : Config} (hlast : last = some m) : s.boot.config = m := by
  obtain ⟨among, slots, here⟩ := h.at_rest hrest
  have hknown : ∀ c, Known last c → c = m ∨ c.number < m.number := by
    rintro c ⟨m', hm', hc⟩
    rw [hlast] at hm'
    obtain rfl := Option.some.inj hm'
    exact hc
  refine boot_config_eq (h.le m hlast).1 (Or.inl (here m hlast))
    (fun c hc hv => hknown c (slots c hc hv))
    fun c hc _ => ?_
  obtain ⟨ws, hws, hconf⟩ := h.sound.read_mem hadv hc
  exact hknown c (among.log ws hws c hconf)

/-- **During a save**, the last copy saved, or the one that is being saved. -/
theorem Secure.boot_or (h : Secure last s) (hadv : s.log.advances < 2 ^ 26 - 1) (copy : Copy last s)
    (hslots : SlotsAmong (fun c => Known last c ∨ c = s.log.staging.config) s.log.flash)
    (hfound : InSlot last s.log.flash ∨ Logged s.log s.log.staging.config) {m : Config}
    (hlast : last = some m) : s.boot.config = m ∨ s.boot.config = s.log.staging.config := by
  have hlog : ∀ c ∈ configsIn (rawRecords storeRegion s.log.flash),
      Known last c ∨ c = s.log.staging.config := by
    intro c hc
    obtain ⟨ws, hws, hconf⟩ := h.sound.read_mem hadv hc
    exact copy.among.log ws hws c hconf
  have holder : ∀ c, Known last c ∨ c = s.log.staging.config →
      c = s.log.staging.config ∨ c.number < s.log.staging.config.number := by
    intro c hc
    obtain ⟨m', hm', hc⟩ := copy.known hc
    obtain rfl := Option.some.inj hm'
    exact hc
  by_cases hcopy : (s.log.staging.config ∈ slotConfigs s.log.flash ∧ s.log.staging.config.Valid) ∨
      (s.log.staging.config ∈ configsIn (rawRecords storeRegion s.log.flash) ∧
        s.log.staging.config.Sound)
  · exact Or.inr (boot_config_eq copy.pos hcopy (fun c hc hv => holder c (hslots c hc hv))
      fun c hc _ => holder c (hlog c hc))
  · -- the copy is not complete
    have hknown : ∀ c, Known last c → c = m ∨ c.number < m.number := by
      rintro c ⟨m', hm', hc⟩
      rw [hlast] at hm'
      obtain rfl := Option.some.inj hm'
      exact hc
    have hhere : InSlot last s.log.flash := hfound.resolve_right fun hl =>
      hcopy (Or.inr ⟨h.sound.read_logged hadv hl, copy.sound⟩)
    refine Or.inl (boot_config_eq (h.le m hlast).1 (Or.inl (hhere m hlast)) (fun c hc hv => ?_)
      fun c hc hs => ?_)
    · refine hknown c ((hslots c hc hv).resolve_right ?_)
      rintro rfl
      exact hcopy (Or.inl ⟨hc, hv⟩)
    · refine hknown c ((hlog c hc).resolve_right ?_)
      rintro rfl
      exact hcopy (Or.inr ⟨hc, hs⟩)

/-- The last copy saved is in another slot than the one that is being written. -/
theorem WritingSlot.inSlot {flash : ℕ → Word} {i k : ℕ} (w : WritingSlot s.log flash i k)
    (here : InSlot last flash) : InSlot last s.log.flash := by
  intro m hm
  obtain ⟨hmem, hv⟩ := here m hm
  obtain ⟨j, hj, rfl⟩ := mem_slotConfigs.1 hmem
  have hne : j ≠ i := by
    rintro rfl
    exact hv.1 (w.blank 0 (by decide))
  refine ⟨mem_slotConfigs.2 ⟨j, hj, ?_⟩, hv⟩
  rw [w.flash_eq, slotConfig_burn_other flash hne]

/-- **At any moment** the last copy saved is in a slot, or a newer one in the log. -/
theorem Secure.held (h : Secure last s) {m : Config} (hlast : last = some m) :
    (m ∈ slotConfigs s.log.flash ∧ m.Valid) ∨ ∃ c, Logged s.log c ∧ m.number < c.number := by
  cases h.stage with
  | rest _ among slots here => exact Or.inl (here m hlast)
  | logging _ _ copy slots here => exact Or.inl (here m hlast)
  | logged _ copy slots logged => exact Or.inr ⟨_, logged, copy.newer m hlast⟩
  | slot _ copy w slots here =>
    exact here.imp (fun here => w.inSlot here m hlast) fun logged => ⟨_, logged, copy.newer m hlast⟩

/-- **At any moment**, if a slot that is sound holds a whole copy. -/
theorem Secure.boot_any (h : Secure last s) (hadv : s.log.advances < 2 ^ 26 - 1)
    (hwhole : ∀ c ∈ slotConfigs s.log.flash, c.Valid → c ∈ s.saves.map Save.config) {m : Config}
    (hlast : last = some m) :
    s.boot.config = m ∨ (InSave s ∧ s.boot.config = s.log.staging.config) := by
  by_cases hin : InSave s
  · suffices hor : s.boot.config = m ∨ s.boot.config = s.log.staging.config from
      hor.imp id fun hcopy => ⟨hin, hcopy⟩
    cases h.stage with
    | rest hs =>
      rcases hin with hin | hin | hin | ⟨hin, hsaved⟩
      all_goals
        rcases hs with hs | hs | ⟨hs, hs'⟩ <;> rw [hs] at hin <;> cases hin
      rw [hs'] at hsaved
      cases hsaved
    | logging _ _ copy slots here =>
      exact h.boot_or hadv copy (fun c hc hv => Or.inl (slots c hc hv)) (Or.inl here) hlast
    | logged _ copy slots logged =>
      exact h.boot_or hadv copy (fun c hc hv => Or.inl (slots c hc hv)) (Or.inr logged) hlast
    | @slot flash i k hs copy w slots here =>
      have hsaved : SlotsAmong (fun c => Known last c ∨ c = s.log.staging.config) s.log.flash :=
        fun c hc hv => by
          obtain ⟨x, hx, rfl⟩ := List.mem_map.1 (hwhole c hc hv)
          exact copy.among.saves x hx
      exact h.boot_or hadv copy hsaved (here.imp w.inSlot id) hlast
  · exact Or.inl (h.boot hadv hin hlast)

end Saving

/-! ## Runs -/

/-- The store, and the last copy saved before it was started. -/
structure Traced where
  store : Store
  prev : Option Config

/-- The last copy saved. -/
def Traced.last (t : Traced) : Option Config := lastSaved t.prev t.store

/-- A step of the store over many boots. -/
def tracedStep (t : Traced) (e : SystemEvent) : Traced :=
  { store := systemStep t.store e
    prev := match e with
      | .event _ => t.prev
      | .reboot => t.last }

/-- The first start up, nothing having been saved. -/
def Traced.first (flash : ℕ → Word) : Traced := ⟨Store.first flash, none⟩

theorem tracked_first {flash : ℕ → Word} (h : Erased flash) : Tracked none (Store.first flash) := by
  have hblank : PageBlank flash := fun a h₁ h₂ =>
    h a (by simp only [storeStart, configStart] at *; omega) h₂
  refine ⟨flow_startUp _, fun _ => ⟨sound_first h, flow_startUp _, ?_, nofun, ?_⟩⟩
  · rw [Store.first, startUp_config]
    exact number_default.ge.trans Newest.key_le_foldl_keep
  · exact .rest (Or.inl rfl) ⟨nofun, nofun⟩ hblank.slotsAmong nofun

theorem storeStep_history (s : Store) {e : StoreEvent} (he : e ≠ .loop) :
    (storeStep s e).log.advances = s.log.advances ∧ (storeStep s e).saved = s.saved := by
  cases e with
  | loop => exact absurd rfl he
  | device e =>
    obtain ⟨flash', sd', fc, tries, rs', written', refused', hbeside⟩ := sdEvent_beside s.log e
    rw [storeStep, hbeside]
    exact ⟨rfl, rfl⟩
  | tick | change | factory | save | info | chunk | exec => exact ⟨rfl, rfl⟩

theorem Tracked.step {t : Traced} (h : Tracked t.prev t.store) {e : SystemEvent}
    (hwrap : ¬ Wraps t.store e) (hcut : e = .reboot → ¬ InSave t.store) :
    Tracked (tracedStep t e).prev (tracedStep t e).store := by
  cases e with
  | reboot =>
    exact ⟨flow_startUp _, fun hadv => (h.secure hadv).reboot hadv (hcut rfl)⟩
  | event e =>
    by_cases he : e = .loop
    · subst he
      exact h.loop hwrap
    · obtain ⟨hsame, hsaved⟩ := storeStep_history t.store he
      refine ⟨h.flow.step (.event e), fun hadv => ?_⟩
      have hlt : t.store.log.advances < 2 ^ 26 - 1 := hsame ▸ hadv
      have hnext := (h.secure hlt).event he hwrap (((h.secure hlt).sound.between.step e).sound hadv)
      change Secure (lastSaved t.prev (storeStep t.store e)) (storeStep t.store e)
      rw [lastSaved, hsaved]
      exact hnext

/-- No power loss cuts a save. -/
def Whole (t : Traced) (e : SystemEvent) : Prop := e = .reboot → ¬ InSave t.store

instance (t : Traced) : ∀ e : SystemEvent, Decidable (Whole t e)
  | .reboot => decidable_of_iff (¬ InSave t.store) ⟨fun h _ => h, fun h => h rfl⟩
  | .event _ => .isTrue nofun

/-- The sequence number does not run out. -/
def Numbering (t : Traced) (e : SystemEvent) : Prop := ¬ Wraps t.store e

instance (t : Traced) (e : SystemEvent) :
    Decidable (Numbering t e) := inferInstanceAs (Decidable (¬ _))

theorem tracked_run {flash : ℕ → Word} (h : Erased flash) {es : List SystemEvent}
    (hwhole : Runs.Each tracedStep Whole (Traced.first flash) es)
    (hnum : Runs.Each tracedStep Numbering (Traced.first flash) es) :
    Tracked (Runs.run tracedStep (Traced.first flash) es).prev
      (Runs.run tracedStep (Traced.first flash) es).store :=
  @Runs.inv_of_each _ _ tracedStep (fun t e => Whole t e ∧ Numbering t e)
    (fun t => Tracked t.prev t.store) (fun _ _ ht hc => ht.step hc.2 hc.1) _ (tracked_first h) es
    (Runs.each_and hwhole hnum)

/-- **The boot loads the latest configuration**, as long as the sequence
number does not run out. -/
theorem latest_loaded {flash : ℕ → Word} (h : Erased flash) (es : List SystemEvent)
    (hwhole : Runs.Each tracedStep Whole (Traced.first flash) es)
    (hnum : Runs.Each tracedStep Numbering (Traced.first flash) es)
    (hadv : (Runs.run tracedStep (Traced.first flash) es).store.log.advances < 2 ^ 26 - 1)
    (hrest : ¬ InSave (Runs.run tracedStep (Traced.first flash) es).store) {c : Config}
    (hlast : (Runs.run tracedStep (Traced.first flash) es).last = some c) :
    (Runs.run tracedStep (Traced.first flash) es).store.boot.config = c :=
  ((tracked_run h hwhole hnum).secure hadv).boot hadv hrest hlast

/-- A save of the configuration, from the request to the end. -/
def saveEvents : List StoreEvent :=
  [.save true, .loop] ++ List.replicate 32 (.device .work) ++ [.device .success, .loop]

/-- Two saves, a start up, and a third save. -/
def savesRun : List SystemEvent :=
  (.loop :: saveEvents ++ saveEvents).map .event ++ [.reboot] ++ (.loop :: saveEvents).map .event

set_option maxRecDepth 100000 in
theorem latest_loaded_saves :
    ∃ c, (Runs.run tracedStep (Traced.first fun _ => erasedWord) savesRun).last = some c ∧
      (Runs.run tracedStep (Traced.first fun _ => erasedWord) savesRun).store.boot.config = c :=
  ⟨_, rfl, latest_loaded (fun _ _ _ => rfl) savesRun (by decide) (by decide) (by decide)
    (by decide) rfl⟩

/-- The default with this number. -/
def defaultOf (q : BitVec 16) : Config :=
  Config.setSequence ⟨Function.update (fun _ => 0#32) 30 0#32⟩ q

theorem configDefault_defaultOf (q : BitVec 16) :
    configDefault (defaultOf q) = defaultOf (q + 1#16) := by
  have hboots : (defaultOf q).confArray 30 = 0#32 := rfl
  have hseq : (defaultOf q).confSequence = q := Config.confSequence_setSequence _ q
  rw [configDefault, hseq, hboots, BitVec.zero_and]
  rfl

/-- `ConfigDefault`, called over and over. -/
theorem run_factory (n : ℕ) : ∀ (s : Store) (prev : Option Config) (q : BitVec 16),
    s.config = defaultOf q →
    Runs.run tracedStep ⟨s, prev⟩ (List.replicate n (.event .factory)) =
      ⟨{ s with config := defaultOf (q + BitVec.ofNat 16 n) }, prev⟩ := by
  induction n with
  | zero =>
    intro s prev q h
    rw [show q + BitVec.ofNat 16 0 = q from BitVec.add_zero q, ← h]
    rfl
  | succ n ih =>
    intro s prev q h
    have hstep : tracedStep ⟨s, prev⟩ (.event .factory) =
        ⟨{ s with config := defaultOf (q + 1#16) }, prev⟩ := by
      rw [← configDefault_defaultOf, ← h]
      rfl
    rw [List.replicate_succ, Runs.run_cons, hstep, ih _ prev (q + 1#16) rfl]
    have hadd : q + 1#16 + BitVec.ofNat 16 n = q + BitVec.ofNat 16 (n + 1) := by
      rw [Nat.add_comm, BitVec.ofNat_add, BitVec.add_assoc]
    rw [hadd]

/-- The default set until its number is 65534, and then saved twice. -/
def wrapRun : List SystemEvent :=
  .event .loop :: (List.replicate 65533 (.event .factory) ++ (saveEvents ++ saveEvents).map .event)

set_option maxRecDepth 10000 in
theorem wrapRun_eq : Runs.run tracedStep (Traced.first fun _ => erasedWord) wrapRun =
    Runs.run tracedStep
      ⟨{ storeStep (Store.first fun _ => erasedWord) .loop with config := defaultOf 65534#16 },
        none⟩
      ((saveEvents ++ saveEvents).map .event) := by
  have hboot : (storeStep (Store.first fun _ => erasedWord) .loop).config = defaultOf 1#16 :=
    Config.ext_words (by decide)
  have hloop : tracedStep (Traced.first fun _ => erasedWord) (.event .loop) =
      ⟨storeStep (Store.first fun _ => erasedWord) .loop, none⟩ := rfl
  rw [wrapRun, Runs.run_cons, Runs.run_append, hloop, run_factory 65533 _ none 1#16 hboot]
  rfl

set_option maxRecDepth 100000 in
/-- **The number runs out**: the last copy saved has number zero, and start up
loads the one before it. -/
theorem not_latest_loaded : (∀ e ∈ wrapRun, e ≠ .reboot) ∧
    ¬ InSave (Runs.run tracedStep (Traced.first fun _ => erasedWord) wrapRun).store ∧
    ∃ c, (Runs.run tracedStep (Traced.first fun _ => erasedWord) wrapRun).last = some c ∧
      (Runs.run tracedStep (Traced.first fun _ => erasedWord) wrapRun).store.boot.config ≠ c := by
  refine ⟨fun e he => ?_, ?_, ?_⟩
  · rcases List.mem_cons.1 he with rfl | he
    · exact nofun
    rcases List.mem_append.1 he with he | he
    · rw [List.eq_of_mem_replicate he]
      exact nofun
    · obtain ⟨e, -, rfl⟩ := List.mem_map.1 he
      exact nofun
  · rw [wrapRun_eq]
    decide
  · rw [wrapRun_eq]
    refine ⟨_, rfl, fun heq => ?_⟩
    have hnum := congrArg Config.number heq
    revert hnum
    decide

/-! ## Crash atomicity -/

theorem saved_run {flash : ℕ → Word} (h : Erased flash) {es : List StoreEvent}
    (hwrap : Runs.Each storeStep (fun s e => ¬ Wraps s (.event e)) (Store.first flash) es) :
    Tracked none (Runs.run storeStep (Store.first flash) es) :=
  @Runs.inv_of_each _ _ storeStep (fun s e => ¬ Wraps s (.event e)) (Tracked none)
    (fun s e hs hw => Tracked.step (t := ⟨s, none⟩) (e := .event e) hs hw nofun) _
    (tracked_first h) es hwrap

/-- **A save of the configuration is crash-atomic.** After any saves and
records, a power loss at any point leaves the last copy saved, or the one that
was being saved, provided that a piece of a copy does not pass the CRC test. -/
theorem crash_atomic {flash : ℕ → Word} (h : Erased flash) (es : List StoreEvent)
    (hwrap : Runs.Each storeStep (fun s e => ¬ Wraps s (.event e)) (Store.first flash) es)
    (hadv : (Runs.run storeStep (Store.first flash) es).log.advances < 2 ^ 26 - 1)
    (hwhole : ∀ c ∈ slotConfigs (Runs.run storeStep (Store.first flash) es).log.flash, c.Valid →
      c ∈ (Runs.run storeStep (Store.first flash) es).saves.map Save.config)
    {c : Config} (hlast : (Runs.run storeStep (Store.first flash) es).saved = some c) :
    (Runs.run storeStep (Store.first flash) es).boot.config = c ∨
      (InSave (Runs.run storeStep (Store.first flash) es) ∧
        (Runs.run storeStep (Store.first flash) es).boot.config =
          (Runs.run storeStep (Store.first flash) es).log.staging.config) := by
  have hrun := (saved_run h hwrap).secure hadv
  rw [lastSaved, hlast] at hrun
  exact hrun.boot_any hadv hwhole rfl

/-- A save, and a second one cut after its first word. -/
def cutRun : List StoreEvent := .loop :: saveEvents ++ [.save true, .loop, .device .work]

set_option maxRecDepth 100000 in
theorem crash_atomic_cut :
    ∃ c, (Runs.run storeStep (Store.first fun _ => erasedWord) cutRun).saved = some c ∧
      ((Runs.run storeStep (Store.first fun _ => erasedWord) cutRun).boot.config = c ∨
        (InSave (Runs.run storeStep (Store.first fun _ => erasedWord) cutRun) ∧
          (Runs.run storeStep (Store.first fun _ => erasedWord) cutRun).boot.config =
            (Runs.run storeStep (Store.first fun _ => erasedWord) cutRun).log.staging.config)) := by
  refine ⟨_, rfl, crash_atomic (fun _ _ _ => rfl) cutRun (by decide) (by decide)
    (fun c hc hv => ?_) rfl⟩
  obtain ⟨i, hi, rfl⟩ := mem_slotConfigs.1 hc
  have hvalid : ∀ j < configSlots, j ≠ 0 →
      ¬ (slotConfig (Runs.run storeStep (Store.first fun _ => erasedWord) cutRun).log.flash
        j).Valid := by
    decide
  obtain rfl : i = 0 := by
    by_contra hne
    exact hvalid i hi hne hv
  have hwords : ((Runs.run storeStep (Store.first fun _ => erasedWord) cutRun).saves.map
      fun x => x.config.words)[0]? =
        some (slotConfig (Runs.run storeStep (Store.first fun _ => erasedWord) cutRun).log.flash
          0).words := by
    decide
  rw [List.getElem?_map, Option.map_eq_some_iff] at hwords
  obtain ⟨x, hx, hw⟩ := hwords
  rw [← Config.ext_words hw]
  exact List.mem_map_of_mem (List.mem_of_getElem? hx)

end App

end AntTracer
