import AntTracer.App.Slots

/-!
# The stages of the store

At any moment the store waits for its first pass, is at rest, writes a record
to the log, or is at one of the steps of saving the configuration (`Stage`).
The soft device has at most the one operation the stage is waiting for, and
each event of it, each round of `StoreSuperLoop` and each power loss goes from
stage to stage (`Sound.step`).
-/

namespace AntTracer

namespace App

/-! ## The log beside the configuration page -/

section Log

variable {l l' : Log} {t : LogTape} {spare : List Word}

theorem Idle.congr (h : Idle l t spare)
    (hflash : ∀ a, storeStart ≤ a → a < storeEnd → l'.flash a = l.flash a)
    (hrecords : l'.records = l.records) (hstate : l'.wrState = l.wrState)
    (hneed : l'.needSeq = l.needSeq) (htail : l'.currentWrite = l.currentWrite)
    (hseq : l'.sequence = l.sequence) (hadv : l'.advances = l.advances) : Idle l' t spare :=
  ⟨h.disk.congr hflash, hrecords ▸ h.linked, hrecords ▸ h.settled, hstate.trans h.state,
    hneed.trans h.needSeq, htail.trans h.tail, hseq.trans h.sequence, hadv ▸ h.advances⟩

/-- The configuration page erased. -/
theorem Idle.erase_config (h : Idle l t spare) : Idle (erasePage 126 l) t spare :=
  ⟨h.disk.congr fun _ _ ha => wipe_config l.flash ha, h.linked.noteErased 126,
    settled_noteErased h.settled 126, h.state, h.needSeq, h.tail, h.sequence, h.advances⟩

/-- The log is at rest, and the soft device is free. -/
def Free (l : Log) : Prop := l.sd = none ∧ ∃ t spare, Idle l t spare

/-- The log before `INIT0`. -/
structure Off (l : Log) : Prop where
  sd : l.sd = none
  state : l.wrState = .idle
  needSeq : l.needSeq = false
  settled : ∀ r ∈ l.records, r.status ≠ .writing
  tape : ∃ t spare, Disk t spare l.flash ∧ Linked t l.records ∧ t.hi ≤ l.advances

/-- After a power loss. -/
theorem off_powerLoss (h : ∃ t spare, Disk t spare l.flash ∧ Linked t (noteStatus .cut l.records) ∧
    t.hi ≤ l.advances) : Off (powerLoss l) where
  sd := rfl
  state := rfl
  needSeq := rfl
  settled r hr := by
    obtain ⟨r₀, -, rfl⟩ := List.mem_map.1 hr
    split
    · simp
    · assumption
  tape := h

theorem Off.cut (h : Off l) : Off (powerLoss l) := by
  obtain ⟨t, spare, hdisk, hlinked, hhi⟩ := h.tape
  exact off_powerLoss ⟨t, spare, hdisk, by rwa [noteStatus_settled h.settled], hhi⟩

theorem Idle.cut (h : Idle l t spare) : Off (powerLoss l) :=
  off_powerLoss ⟨t, spare, h.disk, by rw [noteStatus_settled h.settled]; exact h.linked, h.advances⟩

/-- **`INIT0`.** -/
theorem Off.setUp (h : Off l) (b : Buffer) :
    Free (setUpWrite (readFlash logReader storeRegion l).2.1 (readFlash logReader storeRegion l).2.2
      { deliverAll App.deliver (rawRecords storeRegion l.flash) l with buf := b }) := by
  obtain ⟨t, spare, hdisk, hlinked, hhi⟩ := h.tape
  obtain ⟨st, hst⟩ := deliverAll_eq (rawRecords storeRegion l.flash) l
  rw [hdisk.setUpWrite_eq, hst]
  exact ⟨h.sd, t, spare, hdisk, hlinked, h.settled, h.state, h.needSeq, rfl, rfl, hhi⟩

/-! ## Operations on the configuration page -/

/-- The configuration page is being erased. -/
structure ErasingPage (l : Log) : Prop where
  idle : ∃ t spare, Idle l t spare
  slots : Slots l.flash
  op : (∃ done, ErasingOp l 126 done ∧ (done = true → PageBlank l.flash)) ∨
    (PageBlank l.flash ∧ l.sd = none ∧ l.flashComplete = true)

/-- The copy in the staging area is being written to a slot. -/
structure WritingSlot (l : Log) (flash : ℕ → Word) (i k : ℕ) : Prop where
  idle : ∃ t spare, Idle l t spare
  lt : i < configSlots
  blank : ∀ j < configWords, flash (slotAddr i + j) = erasedWord
  slots : Slots flash
  le : k ≤ configWords
  flash_eq : l.flash = burn flash (slotAddr i) (l.staging.config.words.take k)
  op : (∃ j ≤ k, WritingOp l (slotAddr i) .config l.staging.config.words j) ∨
    (k = configWords ∧ l.sd = none ∧ l.flashComplete = true)

theorem Free.erasingPage (h : Free l) (hslots : Slots l.flash) :
    ErasingPage (flashErase configStart l) := by
  obtain ⟨hsd, t, spare, hidle⟩ := h
  exact ⟨⟨t, spare, hidle.congr (fun _ _ _ => rfl) rfl rfl rfl rfl rfl rfl⟩, hslots,
    Or.inl ⟨false, erasingOp_flashErase hsd configStart, nofun⟩⟩

/-- **An event of the soft device** while the page is being erased. -/
theorem ErasingPage.step (h : ErasingPage l) (e : SdEvent) : ErasingPage (sdEvent l e) := by
  obtain ⟨⟨t, spare, hidle⟩, hslots, ⟨done, op, hdone⟩ | ⟨hblank, hsd, hfc⟩⟩ := h
  · obtain ⟨now, sd', fc, tries, heq, hout⟩ := op.step e
    have hblank : ∀ done', (done' = true → done = true ∨ now = true) → done' = true →
        PageBlank (sdEvent l e).flash := by
      intro done' himp hdone'
      rw [heq]
      cases now with
      | false => exact hdone ((himp hdone').resolve_right Bool.false_ne_true)
      | true => exact pageBlank_wipe l.flash
    refine ⟨⟨t, spare, ?_⟩, ?_, ?_⟩
    · rw [heq]
      cases now with
      | false => exact hidle.congr (fun _ _ _ => rfl) rfl rfl rfl rfl rfl rfl
      | true => exact hidle.erase_config.congr (fun _ _ _ => rfl) rfl rfl rfl rfl rfl rfl
    · rw [heq]
      cases now with
      | false => exact hslots
      | true => exact (pageBlank_wipe l.flash).slots
    · obtain ⟨rfl, done', rfl, hdone'⟩ | ⟨rfl, rfl, hnow⟩ := hout
      · refine Or.inl ⟨done', ?_, hblank done' hdone'⟩
        rw [heq]
        cases now <;> exact ⟨rfl, rfl, op.eraseOp, op.writeOp, op.address⟩
      · refine Or.inr ⟨hblank true (fun _ => hnow) rfl, ?_, ?_⟩ <;> rw [heq]
  · rw [sdEvent_of_none hsd]
    exact ⟨⟨t, spare, hidle⟩, hslots, Or.inr ⟨hblank, hsd, hfc⟩⟩

theorem ram_config (l : Log) : (List.range configWords).map (l.ram .config) =
    l.staging.config.words := by
  refine List.ext_getElem (by simp) fun i h₁ h₂ => ?_
  rw [List.getElem_map, List.getElem_range, ← List.getD_eq_getElem _ 0#32 h₂]
  rfl

theorem writingSlot_flashWrite (hidle : ∃ t spare, Idle l t spare) (hsd : l.sd = none) {i : ℕ}
    (hi : i < configSlots) (hslots : Slots l.flash)
    (hblank : ∀ j < configWords, l.flash (slotAddr i + j) = erasedWord) :
    WritingSlot (flashWrite (slotAddr i) .config configWords l) l.flash i 0 := by
  obtain ⟨t, spare, hidle⟩ := hidle
  refine ⟨⟨t, spare, hidle.congr (fun _ _ _ => rfl) rfl rfl rfl rfl rfl rfl⟩, hi, hblank, hslots,
    Nat.zero_le _, ?_, Or.inl ⟨0, le_rfl, ?_⟩⟩
  · rw [List.take_zero, burn_nil]
    rfl
  · have hlen : l.staging.config.words.length = configWords := Config.length_words _
    have hop := writingOp_flashWrite hsd (slotAddr i) .config (W := l.staging.config.words)
      (by rw [hlen]; exact ram_config l)
    rw [hlen] at hop
    exact hop

/-- **An event of the soft device** while a slot is being written. -/
theorem WritingSlot.step {flash : ℕ → Word} {i k : ℕ} (h : WritingSlot l flash i k) (e : SdEvent) :
    ∃ k', WritingSlot (sdEvent l e) flash i k' := by
  obtain ⟨⟨t, spare, hidle⟩, hi, hblank, hslots, hk, hflash, ⟨j, hj, op⟩ | ⟨rfl, hsd, hfc⟩⟩ := h
  · obtain ⟨flash', sd', fc, tries, written', heq, hout⟩ := op.step e
    have hb : Burnt l flash (slotAddr i) l.staging.config.words j k :=
      ⟨hflash, hj, by simpa using hk, fun j hj => hblank j (by simpa using hj)⟩
    have hstaging : (sdEvent l e).staging = l.staging := by rw [heq]
    have hwords : l.staging.config.words.length = configWords := Config.length_words _
    have hnew : ∀ ws : List Word, flash' = burn flash (slotAddr i) ws →
      Idle (sdEvent l e) t spare :=
      fun ws hf => by
        rw [heq]
        refine hidle.congr (fun a _ ha => ?_) rfl rfl rfl rfl rfl rfl
        rw [hflash, burn_slot_store flash i _ ha]
        exact (congrFun hf a).trans (burn_slot_store flash i _ ha)
    obtain ⟨rfl, rfl, j', hj', rfl, hgo⟩ | ⟨rfl, rfl, rfl, hgo⟩ := hout
    · obtain ⟨k', h₁, h₂, h₃⟩ := hgo flash k hb
      have hop : WritingOp (sdEvent l e)
        (slotAddr i) .config (sdEvent l e).staging.config.words j' := by
        rw [hstaging, heq]
        exact ⟨rfl, hj', rfl, op.eraseOp, op.writeOp, op.address, op.source, op.count, op.ram⟩
      refine ⟨k', ⟨t, spare, hnew _ h₃⟩, hi, hblank, hslots, by rwa [hwords] at h₂, ?_,
        Or.inl ⟨j', h₁, hop⟩⟩
      rw [hstaging, heq]
      exact h₃
    · have hdone := hgo flash k hb
      refine ⟨configWords, ⟨t, spare, hnew _ hdone⟩, hi, hblank, hslots, le_rfl, ?_,
        Or.inr ⟨rfl, ?_, ?_⟩⟩
      · rw [hstaging, ← hwords, List.take_length, heq]
        exact hdone
      · rw [heq]
      · rw [heq]
  · rw [sdEvent_of_none hsd]
    exact ⟨configWords, ⟨t, spare, hidle⟩, hi, hblank, hslots, hk, hflash, Or.inr ⟨rfl, hsd, hfc⟩⟩

end Log

/-! ## A part of a software update put into the union -/

/-- Another union in the staging area. -/
def Log.setSu (u : Union) (l : Log) : Log := { l with staging := { l.staging with su := u } }

section Union

variable {l : Log}

theorem Working.setSu (h : Working l) (u : Union) : Working (l.setSu u) := by
  cases h with
  | erasing b more state needSeq tail op =>
    refine .erasing (b.congr rfl rfl rfl rfl rfl) more state needSeq tail (op.imp ?_ id)
    rintro ⟨done, op, hdone⟩
    exact ⟨done, ⟨op.sd, op.complete, op.eraseOp, op.writeOp, op.address⟩, hdone⟩
  | writing w op =>
    refine .writing ⟨w.disk, w.linked, w.settled, w.records, w.writing, w.start, w.record,
      w.placed, w.le, w.flash_eq, w.buf, w.state, w.needSeq, w.sequence, w.advances⟩ (op.imp ?_ id)
    rintro ⟨j, hj, op⟩
    exact ⟨j, hj, op.sd, op.le, op.complete, op.eraseOp, op.writeOp, op.address, op.source,
      op.count, op.ram⟩

theorem Idle.setSu {t : LogTape} {spare : List Word} (h : Idle l t spare) (u : Union) :
    Idle (l.setSu u) t spare :=
  h.congr (fun _ _ _ => rfl) rfl rfl rfl rfl rfl rfl

theorem Free.setSu (h : Free l) (u : Union) : Free (l.setSu u) := by
  obtain ⟨hsd, t, spare, hidle⟩ := h
  exact ⟨hsd, t, spare, hidle.setSu u⟩

theorem Off.setSu (h : Off l) (u : Union) : Off (l.setSu u) :=
  ⟨h.sd, h.state, h.needSeq, h.settled, h.tape⟩

theorem ErasingPage.setSu (h : ErasingPage l) (u : Union) : ErasingPage (l.setSu u) := by
  obtain ⟨⟨t, spare, hidle⟩, hslots, op⟩ := h
  refine ⟨⟨t, spare, hidle.setSu u⟩, hslots, op.imp ?_ id⟩
  rintro ⟨done, op, hdone⟩
  exact ⟨done, ⟨op.sd, op.complete, op.eraseOp, op.writeOp, op.address⟩, hdone⟩

theorem WritingSlot.setSu {flash : ℕ → Word} {i k : ℕ} (h : WritingSlot l flash i k) (u : Union) :
    WritingSlot (l.setSu u) flash i k := by
  obtain ⟨⟨t, spare, hidle⟩, hi, hblank, hslots, hk, hflash, op⟩ := h
  refine ⟨⟨t, spare, hidle.setSu u⟩, hi, hblank, hslots, hk, hflash, op.imp ?_ id⟩
  rintro ⟨j, hj, op⟩
  exact ⟨j, hj, op.sd, op.le, op.complete, op.eraseOp, op.writeOp, op.address, op.source,
    op.count, op.ram⟩

theorem Union.length_sud (u : Union) : u.sud.data.length = oqSuChunk := by
  simp [Union.sud, wordBytes, oqSuChunk]

/-- The record of a part, from the union. -/
def Part.record (u : Union) : Part → Rec
  | .hdr => .header u.sui
  | .data => .chunk u.sud u.length_sud
  | .exec => .execute u.sux

theorem Part.record_eq (p : Part) (u : Union) :
    (p.record u).type = p.type ∧ (p.record u).fields = p.fields u := by
  cases p <;> exact ⟨rfl, rfl⟩

theorem Part.isRecord (p : Part) (u : Union) (b : Buffer) :
    IsRecord (recordWords p.type (p.fields u) b) := by
  obtain ⟨h₁, h₂⟩ := p.record_eq u
  rw [← h₁, ← h₂]
  exact (p.record u).isRecord b

end Union

/-! ## Configurations in records -/

/-- A configuration record hands on the configuration. -/
theorem configIn_config {c : Config} (hc : c.Sound) (b : Buffer) :
    configIn (recordWords rtConfig (configFields c) b) = some c := by
  have hty : typeOf (recordWords rtConfig (configFields c) b) = rtConfig :=
    (Rec.config c).typeOf_words b
  rw [configIn, if_pos hty, readAs_config, Option.filter_some, if_pos (by simpa using hc)]

/-- The others do not. -/
theorem Part.configIn_words (p : Part) (u : Union) (b : Buffer) :
    configIn (recordWords p.type (p.fields u) b) = none := by
  obtain ⟨h₁, h₂⟩ := p.record_eq u
  have hty := (p.record u).typeOf_words b
  rw [h₁, h₂] at hty
  rw [configIn, hty]
  cases p <;> exact if_neg (by decide)

/-- **What the handler gets at start up was handed to `wrGo`.** -/
theorem Linked.configsIn_mem {t : LogTape} {spare : List Word} {flash : ℕ → Word}
    {rs : List Appended}
    (hd : Disk t spare flash) (h : Linked t rs) :
    ∀ c ∈ configsIn (rawRecords storeRegion flash), ∃ r ∈ rs, configIn r.words = some c := by
  intro c hc
  rw [hd.rawRecords_eq] at hc
  obtain ⟨ws, hws, hc⟩ := List.mem_filterMap.1 hc
  obtain ⟨⟨o, ws⟩, he, rfl⟩ := List.mem_map.1 hws
  obtain ⟨u, h₁, h₂, he⟩ := mem_contents.1 he
  cases o with
  | none =>
    -- a piece of a record is too short
    refine absurd ?_ (h.piece u h₁ h₂ ws he)
    rw [configIn] at hc
    split at hc
    · rename_i hty
      refine ⟨by rw [hty]; decide, ?_⟩
      rw [hty]
      have hsome : (readAs rdConfig ws).isSome :=
        Option.isSome_of_eq_some (Option.filter_eq_some_iff.1 hc).1
      have hne : ws ≠ [] := by
        rintro rfl
        revert hty
        decide
      exact (rdConfig_reads.readAs_isSome hne).1 hsome
    · cases hc
  | some i =>
    obtain ⟨r, hr, rfl, -⟩ := h.whole u h₁ h₂ i ws he
    exact ⟨r, List.mem_of_getElem? hr, hc⟩

/-! ## Phases -/

/-- A copy of the configuration is on its way, and there is no room for it in
the configuration page. -/
def Copying (s : Store) : Prop :=
  freeSlot s.log.flash = none ∧ s.log.staging.config.Numbered

/-- **What the store is doing.** -/
def Stage (s : Store) : Prop :=
  match s.state with
  -- it has not looked at the flash yet
  | .init0 => Off s.log
  | .idle => Free s.log
  -- a part of a software update is written to the log, or a copy of the configuration
  | .writing => Working s.log ∧ (s.savedState = .idle ∨ (s.savedState = .config1 ∧ Copying s))
  | .config1 => Free s.log ∧ Copying s
  | .config2 => ErasingPage s.log ∧ s.log.staging.config.Numbered
  | .config3 => (∃ flash i k, WritingSlot s.log flash i k) ∧ s.log.staging.config.Numbered
  | _ => False

namespace Stage

variable {s s' : Store}

theorem congr (h : Stage s) (hstate : s'.state = s.state) (hsaved : s'.savedState = s.savedState)
    (hlog : s'.log = s.log) : Stage s' := by
  unfold Stage Copying at *
  rw [hstate, hsaved, hlog]
  exact h

theorem off (h : Stage s) (hs : s.state = .init0) : Off s.log := by
  rw [Stage, hs] at h
  exact h

theorem free (h : Stage s) (hs : s.state = .idle) : Free s.log := by
  rw [Stage, hs] at h
  exact h

theorem writing (h : Stage s) (hs : s.state = .writing) :
    Working s.log ∧ (s.savedState = .idle ∨ (s.savedState = .config1 ∧ Copying s)) := by
  rw [Stage, hs] at h
  exact h

theorem copied (h : Stage s) (hs : s.state = .config1) : Free s.log ∧ Copying s := by
  rw [Stage, hs] at h
  exact h

theorem erasing (h : Stage s) (hs : s.state = .config2) :
    ErasingPage s.log ∧ s.log.staging.config.Numbered := by
  rw [Stage, hs] at h
  exact h

theorem slot (h : Stage s) (hs : s.state = .config3) :
    (∃ flash i k, WritingSlot s.log flash i k) ∧ s.log.staging.config.Numbered := by
  rw [Stage, hs] at h
  exact h

/-- There are no other states to be in. -/
theorem states (h : Stage s) : s.state = .init0 ∨ s.state = .idle ∨ s.state = .writing ∨
    s.state = .config1 ∨ s.state = .config2 ∨ s.state = .config3 := by
  unfold Stage at h
  split at h <;> simp_all

theorem resting (h : Stage s) : Resting s :=
  ⟨h.states, fun hs => (h.writing hs).2.imp id And.left⟩

end Stage

/-- **The invariant of the store.** -/
structure Sound (s : Store) : Prop where
  slots : Slots s.log.flash
  numbered : s.config.Numbered
  /-- configurations in the log begin with their number too -/
  words : ∀ ws ∈ s.log.words, ∀ c, configIn ws = some c → c.Numbered
  stage : Stage s

section Steps

variable {s s' : Store}

theorem Sound.congr (h : Sound s) (hstate : s'.state = s.state)
    (hsaved : s'.savedState = s.savedState)
    (hlog : s'.log = s.log) (hconfig : s'.config.Numbered) : Sound s' :=
  ⟨hlog ▸ h.slots, hconfig, hlog ▸ h.words, h.stage.congr hstate hsaved hlog⟩

/-! ## Events of the soft device -/

/-- A record is written in the store. -/
theorem Working.flash_config {l : Log} (h : Working l) (e : SdEvent) {a : ℕ} (ha : storeEnd ≤ a) :
    (sdEvent l e).flash a = l.flash a := by
  cases h with
  | @erasing t spare rs r b more state needSeq tail op =>
    rcases op with ⟨done, op, -⟩ | ⟨-, hsd, -⟩
    · obtain ⟨now, sd', fc, tries, heq, -⟩ := op.step e
      have hmod := mod_lt t.hi
      rw [heq]
      cases now with
      | false => rfl
      | true => exact if_neg (by simp only [storeEnd, storePages, pageWords] at *; omega)
    · rw [sdEvent_of_none hsd]
  | @writing t spare flash rs r W n k w op =>
    rcases op with ⟨j, hj, op⟩ | ⟨-, hsd, -⟩
    · obtain ⟨flash', sd', fc, tries, written', heq, hout⟩ := op.step e
      have hb : Burnt l flash l.currentWrite W j k :=
        ⟨w.flash_eq, hj, w.le, fun i hi => w.placed.blank w.disk w.record hi⟩
      obtain ⟨-, hend⟩ := w.placed.within_words w.disk w.record
      have hburn : ∀ ws : List Word, ws.length ≤ W.length →
        burn flash l.currentWrite ws a = flash a :=
        fun ws hlen => burn_of_not (by omega)
      rw [heq, w.flash_eq, hburn _ (by simp)]
      dsimp only
      obtain ⟨-, -, j', -, -, hgo⟩ | ⟨-, -, -, hgo⟩ := hout
      · obtain ⟨k', -, -, hk'⟩ := hgo flash k hb
        exact (congrFun hk' a).trans (hburn _ (by simp))
      · exact (congrFun (hgo flash k hb) a).trans (hburn _ le_rfl)
    · rw [sdEvent_of_none hsd]

theorem Sound.device (h : Sound s) (e : SdEvent) : Sound { s with log := sdEvent s.log e } := by
  obtain ⟨flash', sd', fc, tries, rs', written', refused', hbeside⟩ := sdEvent_beside s.log e
  have hstaging : (sdEvent s.log e).staging = s.log.staging := by rw [hbeside]
  have hwords : ∀ ws ∈ (sdEvent s.log e).words, ∀ c, configIn ws = some c → c.Numbered := by
    rw [sdEvent_words]
    exact h.words
  have hfree : s.log.sd = none → Sound { s with log := sdEvent s.log e } := by
    intro hsd
    rw [sdEvent_of_none hsd]
    exact h
  have hpage : Working s.log → ∀ a, configStart ≤ a → a < configStart + pageWords →
      (sdEvent s.log e).flash a = s.log.flash a := fun hwork a ha _ => hwork.flash_config e ha
  rcases h.stage.states with hs | hs | hs | hs | hs | hs
  · exact hfree (h.stage.off hs).sd
  · exact hfree (h.stage.free hs).1
  · obtain ⟨hwork, hsaved⟩ := h.stage.writing hs
    refine ⟨h.slots.congr (hpage hwork), h.numbered, hwords, ?_⟩
    rw [Stage]
    simp only [hs]
    refine ⟨hwork.step e, hsaved.imp id fun ⟨hsaved, hfull, hcopy⟩ =>
      ⟨hsaved, ?_, hstaging ▸ hcopy⟩⟩
    refine (freeSlot_congr fun i hi => hpage hwork _ ?_ ?_).2 hfull
    · simp only [slotAddr, configStart]
      omega
    · simp only [slotAddr, configSlots, configWords, pageWords] at *
      omega
  · exact hfree (h.stage.copied hs).1.1
  · obtain ⟨hpage, hcopy⟩ := h.stage.erasing hs
    refine ⟨(hpage.step e).slots, h.numbered, hwords, ?_⟩
    rw [Stage]
    simp only [hs]
    exact ⟨hpage.step e, hstaging ▸ hcopy⟩
  · obtain ⟨⟨flash, i, k, hslot⟩, hcopy⟩ := h.stage.slot hs
    obtain ⟨k', hslot'⟩ := hslot.step e
    have hcopy' : (sdEvent s.log e).staging.config.Numbered := hstaging ▸ hcopy
    refine ⟨?_, h.numbered, hwords, ?_⟩
    · change Slots (sdEvent s.log e).flash
      rw [hslot'.flash_eq]
      exact hslot'.slots.burn hslot'.blank hcopy' k'
    · rw [Stage]
      simp only [hs]
      exact ⟨⟨flash, i, k', hslot'⟩, hcopy'⟩

/-! ## Rounds -/

/-- `INIT0`. -/
theorem Sound.init0 (h : Sound s) (hs : s.state = .init0) : Sound (App.init0 s) := by
  have off := h.stage.off hs
  obtain ⟨t, spare, hdisk, hlinked, -⟩ := off.tape
  obtain ⟨b, hinit⟩ := init0_eq s
  obtain ⟨timer, flag, saving, requests, hback⟩ :=
    callbacks_eq (configsIn (rawRecords storeRegion s.log.flash)) s
  obtain ⟨st, hst⟩ := deliverAll_eq (rawRecords storeRegion s.log.flash) s.log
  have hfree := off.setUp b
  have hlog := hdisk.setUpWrite_eq
    { deliverAll App.deliver (rawRecords storeRegion s.log.flash) s.log with buf := b }
  rw [hlog, hst] at hfree
  rw [hinit, hlog, hst, hback]
  refine ⟨h.slots, ?_, h.words, hfree⟩
  -- what is loaded was saved
  refine List.foldlRecOn _ _ h.numbered fun c hc cf hcf => ?_
  obtain ⟨r, hr, hr'⟩ := hlinked.configsIn_mem hdisk cf hcf
  rw [newer]
  split
  · exact h.words r.words (List.mem_map_of_mem hr) cf hr'
  · exact hc

/-- The copy to be saved. -/
theorem numbered_copyConfig (h : s.config.Numbered) :
    (copyConfig s).config.Numbered ∧ (copyConfig s).log.staging.config.Numbered := by
  have hnew := h.setSequence (s.config.confSequence + 1#16)
  exact ⟨hnew, hnew.setCRC _⟩

theorem sound_copyConfig (s : Store) : (copyConfig s).log.staging.config.Sound :=
  Config.sound_setCRC _

theorem Free.copyConfig (h : Free s.log) : Free (App.copyConfig s).log := by
  obtain ⟨hsd, t, spare, hidle⟩ := h
  exact ⟨hsd, t, spare, hidle.congr (fun _ _ _ => rfl) rfl rfl rfl rfl rfl rfl⟩

/-- **A call of `wrGo`**: the store waits for it, or goes on. -/
theorem stage_handed {r : Log × Bool} (hwent : Went r)
    (hsaved : s.savedState = .idle ∨ (s.savedState = .config1 ∧ Copying { s with log := r.1 })) :
    Stage (handed r s) := by
  rcases hwent with ⟨hr, hwork⟩ | ⟨hr, hsd, hidle⟩
  · have hs : (handed r s).state = .writing := if_pos hr
    rw [Stage, hs]
    exact ⟨hwork, hsaved⟩
  · have hs : (handed r s).state = s.savedState := if_neg (by rw [hr]; exact Bool.false_ne_true)
    rw [Stage, hs]
    rcases hsaved with h | ⟨h, hcopy⟩
    · rw [h]
      exact ⟨hsd, hidle⟩
    · rw [h]
      exact ⟨⟨hsd, hidle⟩, hcopy⟩

/-- **A record handed to `wrGo`.** -/
theorem Sound.append {s₀ : Store} (h : Sound s₀) (hfree : Free s.log)
    (hslots : s.log.flash = s₀.log.flash)
    (hwords : s.log.words = s₀.log.words) (hnum : s.config.Numbered) {ty : Word}
    {fs : List (ℕ × Word)}
    (hrec : IsRecord (recordWords ty fs s.log.buf))
    (hconf : ∀ c, configIn (recordWords ty fs s.log.buf) = some c → c.Numbered)
    (hsaved : s.savedState = .idle ∨ (s.savedState = .config1 ∧ Copying s)) :
    Sound (handed (appendRecord ty fs s.log) s) := by
  obtain ⟨hsd, t, spare, hidle⟩ := hfree
  obtain ⟨hflash, hstaging, -, hw⟩ := appendRecord_kept ty fs s.log
  refine ⟨?_, hnum, ?_, stage_handed (hidle.append hsd hrec) (hsaved.imp id fun ⟨h₁, h₂, h₃⟩ =>
    ⟨h₁, ?_, ?_⟩)⟩
  · change Slots (appendRecord ty fs s.log).1.flash
    rw [hflash, hslots]
    exact h.slots
  · change ∀ ws ∈ (appendRecord ty fs s.log).1.words, _
    rw [hw, hwords]
    intro ws hws c hc
    rcases List.mem_append.1 hws with hws | hws
    · exact h.words ws hws c hc
    · obtain rfl := List.mem_singleton.1 hws
      exact hconf c hc
  · change freeSlot (appendRecord ty fs s.log).1.flash = none
    rw [hflash]
    exact h₂
  · change (appendRecord ty fs s.log).1.staging.config.Numbered
    rw [hstaging]
    exact h₃

/-- **The copy written to a slot.** -/
theorem Sound.writeSlot {s₀ : Store} (h : Sound s₀) (hidle : ∃ t spare, Idle s.log t spare)
    (hsd : s.log.sd = none) (hslots : s.log.flash = s₀.log.flash)
    (hwords : s.log.words = s₀.log.words)
    (hnum : s.config.Numbered) (hcopy : s.log.staging.config.Numbered) {i : ℕ}
    (hi : i < configSlots)
    (hblank : ∀ j < configWords, s.log.flash (slotAddr i + j) = erasedWord) :
    Sound (App.writeSlot i s) := by
  have hs : Slots s.log.flash := by
    rw [hslots]
    exact h.slots
  have hw : ∀ ws ∈ s.log.words, ∀ c, configIn ws = some c → c.Numbered := by
    rw [hwords]
    exact h.words
  exact ⟨hs, hnum, hw, ⟨_, i, 0, writingSlot_flashWrite hidle hsd hi hs hblank⟩, hcopy⟩

/-- **Each round goes from stage to stage.** -/
theorem Sound.round (h : Sound s) (hround : Round s s') (hadv : s.log.advances < 2 ^ 26 - 1) :
    Sound s' := by
  cases hround with
  | init0 hs => exact h.init0 hs
  | @slot i hs hflag hi =>
    have hfree : Free (copyConfig (takeConfig s)).log := (h.stage.free hs).copyConfig
    obtain ⟨hnum, hcopy⟩ := numbered_copyConfig (s := takeConfig s) h.numbered
    obtain ⟨hlt, hblank⟩ := freeSlot_eq_some hi
    exact h.writeSlot hfree.2 hfree.1 rfl rfl hnum hcopy hlt (h.slots.blank hlt hblank)
  | full hs hflag hfull =>
    have hfree : Free (copyConfig (takeConfig s)).log := (h.stage.free hs).copyConfig
    obtain ⟨hnum, hcopy⟩ := numbered_copyConfig (s := takeConfig s) h.numbered
    have hsound := sound_copyConfig (takeConfig s)
    refine h.append (s := { copyConfig (takeConfig s) with
        savedState := .config1
        wanted := s.wanted ++ [recordWords rtConfig
          (configFields (copyConfig (takeConfig s)).log.staging.config) s.log.buf] })
      hfree rfl rfl hnum ((Rec.config (copyConfig (takeConfig s)).log.staging.config).isRecord _)
      (fun c hc => ?_) (Or.inr ⟨rfl, hfull, hcopy⟩)
    rw [configIn_config hsound] at hc
    obtain rfl := Option.some.inj hc
    exact hcopy
  | part p st hs hflag =>
    refine h.append (s := { s with
        opFlag := p.clear s.opFlag
        state := st
        savedState := .idle
        wanted := s.wanted ++ [recordWords p.type (p.fields s.asked) s.log.buf] })
      (h.stage.free hs) rfl rfl h.numbered (p.isRecord _ _) (fun c hc => ?_) (Or.inl rfl)
    rw [p.configIn_words] at hc
    cases hc
  | go hs hfc =>
    obtain ⟨hwork, hsaved⟩ := h.stage.writing hs
    obtain ⟨hflash, hstaging, -, hwords⟩ := wrGo_kept s.log
    refine ⟨?_, h.numbered, ?_, stage_handed (hwork.go hfc hadv) (hsaved.imp id fun ⟨h₁, h₂, h₃⟩ =>
      ⟨h₁, ?_, ?_⟩)⟩
    · change Slots (wrGo s.log).1.flash
      rw [hflash]
      exact h.slots
    · change ∀ ws ∈ (wrGo s.log).1.words, _
      rw [hwords]
      exact h.words
    · change freeSlot (wrGo s.log).1.flash = none
      rw [hflash]
      exact h₂
    · change (wrGo s.log).1.staging.config.Numbered
      rw [hstaging]
      exact h₃
  | erase hs =>
    obtain ⟨hfree, -, hcopy⟩ := h.stage.copied hs
    exact ⟨h.slots, h.numbered, h.words, hfree.erasingPage h.slots, hcopy⟩
  | rewrite hs hfc =>
    obtain ⟨⟨hidle, hslots, ⟨done, op, -⟩ | ⟨hblank, hsd, -⟩⟩, hcopy⟩ := h.stage.erasing hs
    · have hfc' := op.complete
      rw [hfc] at hfc'
      cases hfc'
    · exact h.writeSlot hidle hsd rfl rfl h.numbered hcopy (by decide)
        (hblank.slots.blank (by decide)
        (hblank _ le_rfl (by decide)))
  | saved hs hfc =>
    obtain ⟨⟨flash, i, k, hidle, -, -, -, -, -, ⟨j, -, op⟩ | ⟨-, hsd, -⟩⟩, hcopy⟩ := h.stage.slot hs
    · have hfc' := op.complete
      rw [hfc] at hfc'
      cases hfc'
    · exact ⟨h.slots, h.numbered, h.words, hsd, hidle⟩

/-! ## Passes, requests and power losses -/

theorem init0_advances (s : Store) : (App.init0 s).log.advances = s.log.advances := by
  obtain ⟨b, h⟩ := init0_eq s
  obtain ⟨st, hst⟩ := deliverAll_eq (rawRecords storeRegion s.log.flash) s.log
  rw [h, hst, setUpWrite]
  split <;> rfl

/-- A round does not take back a page advance. -/
theorem Round.advances_le (h : Round s s') : s.log.advances ≤ s'.log.advances := by
  cases h with
  | init0 => exact (init0_advances s).ge
  | slot => exact le_rfl
  | full => exact (appendRecord_advances _ _ (copyConfig (takeConfig s)).log).1
  | part => exact (appendRecord_advances _ _ s.log).1
  | go => exact (wrGo_advances rfl).1
  | erase => exact le_rfl
  | rewrite => exact le_rfl
  | saved => exact le_rfl

theorem rounds_advances (h : Relation.ReflTransGen Round s s') :
    s.log.advances ≤ s'.log.advances := by
  induction h with
  | refl => exact le_rfl
  | tail _ hround ih => exact ih.trans hround.advances_le

/-- **What holds between the passes**: as long as there are few page advances
the store is sound. -/
structure Between (s : Store) : Prop where
  resting : Resting s
  sound : s.log.advances < 2 ^ 26 - 1 → Sound s

theorem Sound.between (h : Sound s) : Between s := ⟨h.stage.resting, fun _ => h⟩

theorem Between.round (h : Between s) (hround : Round s s') : Between s' :=
  ⟨hround.resting h.resting, fun hadv =>
    have hlt := hround.advances_le.trans_lt hadv
    (h.sound hlt).round hround hlt⟩

theorem Between.loop (h : Between s) : Between (storeSuperLoop s).1 :=
  storeSuperLoop_inv (fun _ h => h.resting) (fun _ _ h hround => h.round hround) h

/-- **A power loss at any moment.** -/
theorem Sound.off (h : Sound s) (hadv : s.log.advances < 2 ^ 26 - 1) : Off (powerLoss s.log) := by
  rcases h.stage.states with hs | hs | hs | hs | hs | hs
  · exact (h.stage.off hs).cut
  · obtain ⟨-, t, spare, hidle⟩ := h.stage.free hs
    exact hidle.cut
  · exact off_powerLoss ((h.stage.writing hs).1.cut hadv)
  · obtain ⟨⟨-, t, spare, hidle⟩, -⟩ := h.stage.copied hs
    exact hidle.cut
  · obtain ⟨⟨⟨t, spare, hidle⟩, -, -⟩, -⟩ := h.stage.erasing hs
    exact hidle.cut
  · obtain ⟨⟨flash, i, k, ⟨t, spare, hidle⟩, -⟩, -⟩ := h.stage.slot hs
    exact hidle.cut

theorem Sound.reboot (h : Sound s) (hadv : s.log.advances < 2 ^ 26 - 1) : Sound (startUp s) := by
  refine ⟨h.slots, numbered_configInitialize (s := powerOff s) h.slots, ?_, h.off hadv⟩
  change ∀ ws ∈ (noteStatus .cut s.log.records).map Appended.words, _
  rw [words_noteStatus]
  exact h.words

/-- Requests and time. -/
theorem Sound.setUnion (h : Sound s) (f : Union → Union) : Sound (App.setUnion f s) := by
  refine ⟨h.slots, h.numbered, h.words, ?_⟩
  change Stage { s with log := s.log.setSu (f s.log.staging.su), asked := _ }
  rw [Stage]
  rcases h.stage.states with hs | hs | hs | hs | hs | hs <;> simp only [hs]
  · exact (h.stage.off hs).setSu _
  · exact (h.stage.free hs).setSu _
  · obtain ⟨hwork, hsaved⟩ := h.stage.writing hs
    exact ⟨hwork.setSu _, hsaved⟩
  · obtain ⟨hfree, hcopy⟩ := h.stage.copied hs
    exact ⟨hfree.setSu _, hcopy⟩
  · obtain ⟨hpage, hcopy⟩ := h.stage.erasing hs
    exact ⟨hpage.setSu _, hcopy⟩
  · obtain ⟨⟨flash, i, k, hslot⟩, hcopy⟩ := h.stage.slot hs
    exact ⟨⟨flash, i, k, hslot.setSu _⟩, hcopy⟩

theorem Config.Numbered.change {c c' : Config} (h : c.Numbered) :
    (⟨Function.update c'.confArray 0 (c.confArray 0)⟩ : Config).Numbered := by
  rw [Config.Numbered]
  dsimp only
  rw [Function.update_self]
  exact h

/-- **Every event goes from stage to stage.** -/
theorem Between.step (h : Between s) (e : StoreEvent) : Between (storeStep s e) := by
  have hrest := h.resting
  cases e with
  | loop => exact h.loop
  | device e =>
    refine ⟨⟨hrest.state, hrest.savedState⟩, fun hadv => ?_⟩
    obtain ⟨flash', sd', fc, tries, rs', written', refused', hbeside⟩ := sdEvent_beside s.log e
    have hsame : (sdEvent s.log e).advances = s.log.advances := by rw [hbeside]
    exact (h.sound (hsame ▸ hadv)).device e
  | tick secs => exact ⟨⟨hrest.state, hrest.savedState⟩, fun hadv =>
      (h.sound hadv).congr rfl rfl rfl (h.sound hadv).numbered⟩
  | change c => exact ⟨⟨hrest.state, hrest.savedState⟩, fun hadv =>
      (h.sound hadv).congr rfl rfl rfl (h.sound hadv).numbered.change⟩
  | factory => exact ⟨⟨hrest.state, hrest.savedState⟩, fun hadv =>
      (h.sound hadv).congr rfl rfl rfl (Config.numbered_configDefault _)⟩
  | save force => exact ⟨⟨hrest.state, hrest.savedState⟩, fun hadv =>
      (h.sound hadv).congr rfl rfl rfl (h.sound hadv).numbered⟩
  | info sui => exact ⟨⟨hrest.state, hrest.savedState⟩, fun hadv =>
      ((h.sound hadv).setUnion fun u => u.setSui sui).congr rfl rfl rfl (h.sound hadv).numbered⟩
  | chunk sud => exact ⟨⟨hrest.state, hrest.savedState⟩, fun hadv =>
      ((h.sound hadv).setUnion fun u => u.setSud sud).congr rfl rfl rfl (h.sound hadv).numbered⟩
  | exec sux => exact ⟨⟨hrest.state, hrest.savedState⟩, fun hadv =>
      ((h.sound hadv).setUnion fun u => u.setSux sux).congr rfl rfl rfl (h.sound hadv).numbered⟩

end Steps

/-! ## Runs -/

/-- What happens to the store over many boots. -/
inductive SystemEvent
  | event (e : StoreEvent)
  /-- the power is lost, and comes back -/
  | reboot

/-- A step of the store over many boots. -/
def systemStep (s : Store) : SystemEvent → Store
  | .event e => storeStep s e
  | .reboot => startUp s

/-- The first start up, on this flash. -/
def Store.first (flash : ℕ → Word) : Store := startUp (Store.off flash)

/-- The store and the configuration page are erased. -/
def Erased (flash : ℕ → Word) : Prop :=
  ∀ a, storeStart ≤ a → a < configStart + pageWords → flash a = erasedWord

theorem sound_first {flash : ℕ → Word} (h : Erased flash) : Sound (Store.first flash) := by
  have hslots : Slots flash :=
    PageBlank.slots fun a h₁ h₂ => h a (by simp only [storeStart, configStart] at *; omega) h₂
  refine ⟨hslots, numbered_configInitialize (s := powerOff (Store.off flash)) hslots, nofun, ?_⟩
  exact ⟨rfl, rfl, rfl, nofun, emptyTape, [], disk_empty fun a h₁ h₂ =>
    h a h₁ (by simp only [configStart, storeEnd] at *; omega), linked_empty, Nat.zero_le _⟩

theorem Between.systemStep {s : Store} (h : Between s) (e : SystemEvent) :
    Between (App.systemStep s e) := by
  cases e with
  | event e => exact h.step e
  | reboot => exact ⟨⟨Or.inl rfl, nofun⟩, fun hadv => (h.sound hadv).reboot hadv⟩

/-- **Every state reached is sound**, as long as there are few page
advances. -/
theorem sound_run {flash : ℕ → Word} (h : Erased flash) (es : List SystemEvent) :
    Between (Runs.run systemStep (Store.first flash) es) :=
  Runs.inv_run (fun _ e hs => hs.systemStep e) (sound_first h).between es

end App

end AntTracer
