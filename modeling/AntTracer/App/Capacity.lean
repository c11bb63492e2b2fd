import AntTracer.App.Requests
import AntTracer.App.Wear

/-!
# The first lap

An erased store is filled from its first word on, record behind record, with
a sequence record for each page and no gap. As long as the records fit, the
pages come erased, so that none is recycled and everything completed can still
be read (`first_lap`).
-/

namespace AntTracer

namespace App

/-- What goes into the store before it wraps around: a sequence record takes
one word of each page. -/
abbrev lapWords : ℕ := storePages * (pageWords - 1)

/-! ## The pen -/

namespace Pen

/-- The pen on its first lap, behind `n` words of records and a sequence record
for each page. -/
structure Lap (p : Pen) (n pos : ℕ) : Prop where
  pos_eq : pos = n + p.sequence.toNat
  ptr : p.ptr = storeStart + pos
  /-- the newest page has been begun -/
  low : p.sequence.toNat * pageWords < pos + pageWords
  /-- and not left -/
  high : pos ≤ p.sequence.toNat * pageWords
  blank : ∀ a, storeStart + p.sequence.toNat * pageWords ≤ a → a < storeEnd →
    p.flash a = erasedWord

variable {p q : Pen} {n pos : ℕ} {ws : List Word}

theorem Lap.congr (h : p.Lap n pos) (hptr : q.ptr = p.ptr) (hseq : q.sequence = p.sequence)
    (hflash : ∀ a, storeStart ≤ a → a < storeEnd → q.flash a = p.flash a) : q.Lap n pos := by
  refine ⟨?_, ?_, ?_, ?_, fun a h₁ h₂ => ?_⟩
  · rw [hseq, h.pos_eq]
  · rw [hptr, h.ptr]
  · rw [hseq]
    exact h.low
  · rw [hseq]
    exact h.high
  · rw [hseq] at h₁
    rw [hflash a (by omega) h₂]
    exact h.blank a h₁ h₂

/-- A page of the first lap ends where as many pages end as there are sequence
records. -/
theorem Lap.room_eq (h : p.Lap n pos) : p.room = p.sequence.toNat * pageWords - pos ∧
    pageEnd p.ptr = storeStart + p.sequence.toNat * pageWords := by
  have h₁ := h.low
  have h₂ := h.high
  rw [Pen.room, pageEnd, pageOf, h.ptr]
  generalize p.sequence.toNat = k at *
  simp only [storeStart, pageWords] at *
  clear h
  by_cases hc : 64 * 1024 + pos = (64 * 1024 + pos) / 1024 * 1024
  · have hk : (64 * 1024 + pos) / 1024 = 64 + k := by omega
    rw [if_pos hc, if_pos hc, hk, Nat.add_mul]
    exact ⟨by omega, rfl⟩
  · have hk : (64 * 1024 + pos) / 1024 + 1 = 64 + k := by omega
    rw [if_neg hc, if_neg hc, ← Nat.succ_mul, Nat.succ_eq_add_one, hk, Nat.add_mul]
    exact ⟨by omega, rfl⟩

/-- While a record fits, there is a page to turn to. -/
theorem Lap.turn_lt (h : p.Lap n pos) (hfit : n + ws.length ≤ lapWords)
    (hmore : ws.length > p.room) : p.sequence.toNat < storePages ∧
      p.next = storeStart + p.sequence.toNat * pageWords := by
  obtain ⟨hroom, hend⟩ := h.room_eq
  have hpos := h.pos_eq
  have hlt : p.sequence.toNat < storePages := by
    by_contra hge
    rw [hroom] at hmore
    have hmore' : p.sequence.toNat * pageWords < ws.length + pos := by omega
    simp only [lapWords, storePages, pageWords] at *
    linarith
  refine ⟨hlt, ?_⟩
  rw [Pen.next, hend, if_neg]
  generalize p.sequence.toNat = k at *
  simp only [storeStart, storeEnd, storePages, pageWords] at *
  omega

/-- **The page to turn to is erased.** -/
theorem Lap.next_blank (h : p.Lap n pos) (hfit : n + ws.length ≤ lapWords)
    (hmore : ws.length > p.room) : p.flash p.next = erasedWord := by
  obtain ⟨hlt, hnext⟩ := h.turn_lt hfit hmore
  rw [hnext]
  refine h.blank _ le_rfl ?_
  generalize p.sequence.toNat = k at *
  simp only [storeStart, storeEnd, storePages, pageWords] at *
  omega

/-- **A record behind the last one.** -/
theorem Lap.put (h : p.Lap n pos) (hlen : ws.length < pageWords)
    (hfit : n + ws.length ≤ lapWords) : ∃ pos', (p.put ws).Lap (n + ws.length) pos' := by
  have h₁ := h.low
  have h₂ := h.high
  have h₃ := h.pos_eq
  have hptr := h.ptr
  obtain ⟨hroom, -⟩ := h.room_eq
  rw [Pen.put]
  by_cases hmore : ws.length > p.room
  · obtain ⟨hlt, hnext⟩ := h.turn_lt hfit hmore
    have hstart : p.start = p.ptr := by
      rw [Pen.start, if_neg]
      omega
    have hseq : (p.sequence + 1#32).toNat = p.sequence.toNat + 1 := by
      rw [BitVec.toNat_add, Nat.mod_eq_of_lt]
      · rfl
      · simp only [storePages, BitVec.toNat_ofNat] at *
        omega
    rw [if_pos hmore, Pen.turn, hstart]
    -- the end of the page
    obtain ⟨e, he⟩ : ∃ e, e = p.sequence.toNat * pageWords := ⟨_, rfl⟩
    rw [← he] at h₁ h₂ hroom
    have hover : e < pos + ws.length := by omega
    refine ⟨pos + ws.length + 1, ?_, ?_, ?_, ?_, fun a ha ha' => ?_⟩ <;> dsimp only at *
    · rw [hseq]
      omega
    · rw [List.length_append, List.length_singleton, hptr]
      omega
    · rw [hseq, Nat.succ_mul, ← he]
      omega
    · rw [hseq, Nat.succ_mul, ← he]
      omega
    · rw [hseq, Nat.succ_mul, ← he] at ha
      rw [burn_of_not]
      · unfold wipe
        split
        · rfl
        · exact h.blank a (by rw [← he]; omega) ha'
      · rw [List.length_append, List.length_singleton]
        omega
  · rw [if_neg hmore]
    refine ⟨pos + ws.length, ?_, ?_, ?_, ?_, fun a ha ha' => ?_⟩ <;> dsimp only at *
    · omega
    · omega
    · omega
    · omega
    · rw [burn_of_not]
      · exact h.blank a ha ha'
      · omega

end Pen

/-! ## The log -/

/-- The words of all records handed to `wrGo`. -/
def Log.wordCount (l : Log) : ℕ := (l.words.map List.length).sum

/-- **The log on its first lap.** -/
structure FirstLap (l : Log) : Prop where
  state : l.wrState = .idle ∨ l.wrState = .write1
  pen : ∃ pos, (goal l).Lap l.wordCount pos
  advances : l.advances ≤ l.wordCount
  kept : ∀ r ∈ l.records, r.erased = false

section Log

variable {l l' : Log} {t : LogTape} {spare : List Word}

theorem kept_noteStart {rs : List Appended} (h : ∀ r ∈ rs, r.erased = false) (a : ℕ) :
    ∀ r ∈ noteStart a rs, r.erased = false := by
  intro r hr
  obtain ⟨r₀, hr₀, rfl⟩ := List.mem_map.1 hr
  split <;> exact h r₀ hr₀

theorem kept_noteStatus {rs : List Appended} (h : ∀ r ∈ rs, r.erased = false) (st : Status) :
    ∀ r ∈ noteStatus st rs, r.erased = false := by
  intro r hr
  obtain ⟨r₀, hr₀, rfl⟩ := List.mem_map.1 hr
  split <;> exact h r₀ hr₀

/-- A call of `wrGo` erases nothing. -/
theorem kept_recorded {rs : List Appended} {r : Log × Bool} (hr : Recorded rs r)
    (h : ∀ r ∈ rs, r.erased = false) : ∀ r' ∈ r.1.records, r'.erased = false := by
  rcases hr with ⟨-, hrec | ⟨a, hrec⟩⟩ | ⟨-, hrec⟩ <;> rw [hrec]
  · exact h
  · exact kept_noteStart h a
  · exact kept_noteStatus h .completed

theorem FirstLap.congr (h : FirstLap l) (hidle : l.wrState = .idle) (hstate : l'.wrState = .idle)
    (hptr : l'.currentWrite = l.currentWrite) (hseq : l'.sequence = l.sequence)
    (hwords : l'.words = l.words) (hadv : l'.advances = l.advances)
    (hkept : ∀ r ∈ l'.records, r.erased = false)
    (hflash : ∀ a, storeStart ≤ a → a < storeEnd → l'.flash a = l.flash a) : FirstLap l' := by
  obtain ⟨pos, hpen⟩ := h.pen
  have hcount : l'.wordCount = l.wordCount := by rw [Log.wordCount, hwords, Log.wordCount]
  rw [goal_idle hidle] at hpen
  refine ⟨Or.inl hstate, ⟨pos, ?_⟩, ?_, hkept⟩
  · rw [goal_idle hstate, hcount]
    exact hpen.congr hptr hseq hflash
  · rw [hadv, hcount]
    exact h.advances

theorem wordCount_append (ty : Word) (fs : List (ℕ × Word)) (l : Log) :
    (appendRecord ty fs l).1.wordCount = l.wordCount + (recordWords ty fs l.buf).length := by
  obtain ⟨-, -, -, hw⟩ := appendRecord_kept ty fs l
  rw [Log.wordCount, hw, List.map_append, List.sum_append]
  rfl

/-- **A new record** is written at once. -/
theorem FirstLap.append (h : FirstLap l) (hidle : Idle l t spare) (hsd : l.sd = none) {ty : Word}
    {fs : List (ℕ × Word)} (hrec : IsRecord (recordWords ty fs l.buf))
    (hfit : l.wordCount + (recordWords ty fs l.buf).length ≤ lapWords) :
    FirstLap (appendRecord ty fs l).1 := by
  obtain ⟨pos, hpen⟩ := h.pen
  have hpos := hrec.length_pos
  have hshort := hrec.short
  have hcount := wordCount_append ty fs l
  have hroom := (hidle.disk.pen_eq (p := l.pen) hidle.tail).1
  have hnext := hpen.next_blank hfit
  rw [goal_idle hidle.state, hroom] at hnext
  -- the next page need not be erased
  have hne : (appendRecord ty fs l).1.wrState ≠ .erase1 := by
    rw [hidle.append_eq hrec]
    rcases wrErase_cases l.currentWrite (pageEnd l.currentWrite) (roomOf t)
      (recordWords ty fs l.buf).length (begun ty fs l) with ⟨hmore, hused, -⟩ | ⟨-, hne⟩
    · exact absurd (hnext hmore) hused
    · exact hne
  refine ⟨?_, ?_, ?_, ?_⟩
  · rcases hidle.append hsd hrec with ⟨-, hwork⟩ | ⟨-, -, t', spare', hidle'⟩
    · exact Or.inr (hwork.wrState.resolve_left hne)
    · exact Or.inl hidle'.state
  · rw [hidle.goal_append hrec, hcount]
    exact hpen.put (by simp only [bufferSize, pageWords] at *; omega) hfit
  · have hadv := (appendRecord_advances ty fs l).2
    have := h.advances
    omega
  · refine kept_recorded (recorded_append hidle.state hrec) fun r hr => ?_
    rcases List.mem_append.1 hr with hr | hr
    · exact h.kept r hr
    · rw [List.mem_singleton.1 hr]

/-- The record is written now: the write is over with the next call. -/
theorem Working.go_eq (h : Working l) (hstate : l.wrState = .write1)
    (hfc : l.flashComplete = true) : wrGo l = wrDone .completed { l with
      wrState := .write2
      currentWrite := l.currentWrite + (l.buf.bufferIndex + 1) } := by
  cases h with
  | erasing b more state => rw [hstate] at state; cases state
  | @writing t spare flash rs r W n k w op =>
    rcases op with ⟨j, -, op⟩ | ⟨rfl, -, -⟩
    · have hfc' := op.complete
      rw [hfc] at hfc'
      cases hfc'
    · have hfirst : l.flash l.currentWrite ≠ erasedWord := by
        rw [w.flash_eq, List.take_length]
        exact w.placed.first_ne w.record
      rw [wrGo, w.state]
      dsimp only
      rw [wrWrite, if_pos hfirst]

/-- **A further call of `wrGo`** is the last one. -/
theorem FirstLap.go (h : FirstLap l) (hwork : Working l) (hfc : l.flashComplete = true) :
    FirstLap (wrGo l).1 := by
  have hgoal := hwork.goal_go hfc
  obtain ⟨-, -, -, hw⟩ := wrGo_kept l
  have hcount : (wrGo l).1.wordCount = l.wordCount := by rw [Log.wordCount, hw, Log.wordCount]
  have hkept := kept_recorded (recorded_wrGo (Or.inr hwork.wrState)) h.kept
  have hstate : l.wrState = .write1 := by
    refine hwork.wrState.resolve_left fun herase => ?_
    rcases h.state with hs | hs <;> rw [herase] at hs <;> cases hs
  have hdone := hwork.go_eq hstate hfc
  refine ⟨Or.inl ?_, ?_, ?_, hkept⟩
  · rw [hdone]
    rfl
  · rw [hgoal, hcount]
    exact h.pen
  · rw [hcount, hdone]
    exact h.advances

/-- **An event of the soft device** while a record is written. -/
theorem FirstLap.device (h : FirstLap l) (hwork : Working l) (e : SdEvent) :
    FirstLap (sdEvent l e) := by
  have hgoal := hwork.goal_step e
  have hw := sdEvent_words l e
  have hcount : (sdEvent l e).wordCount = l.wordCount := by rw [Log.wordCount, hw, Log.wordCount]
  cases hwork with
  | erasing b more state =>
    rcases h.state with hs | hs <;> rw [state] at hs <;> cases hs
  | @writing t spare flash rs r W n k w op =>
    rcases op with ⟨j, -, op⟩ | ⟨-, hsd, -⟩
    · obtain ⟨flash', sd', fc, tries, written', heq, -⟩ := op.step e
      refine ⟨?_, ?_, ?_, ?_⟩
      · rw [heq]
        exact h.state
      · rw [hgoal, hcount]
        exact h.pen
      · rw [hcount, heq]
        exact h.advances
      · rw [heq]
        exact h.kept
    · rw [sdEvent_of_none hsd]
      exact h

/-- An event of the soft device while the configuration page is erased. -/
theorem FirstLap.erasing (h : FirstLap l) (hpage : ErasingPage l) (e : SdEvent) :
    FirstLap (sdEvent l e) := by
  obtain ⟨⟨t, spare, hidle⟩, -, ⟨done, op, -⟩ | ⟨-, hsd, -⟩⟩ := hpage
  · obtain ⟨now, sd', fc, tries, heq, -⟩ := op.step e
    have hw := sdEvent_words l e
    refine h.congr hidle.state ?_ ?_ ?_ hw ?_ ?_ ?_ <;> rw [heq]
    · cases now <;> exact hidle.state
    · cases now <;> rfl
    · cases now <;> rfl
    · cases now <;> rfl
    · cases now with
      | false => exact h.kept
      | true =>
        intro r hr
        obtain ⟨r₀, hr₀, rfl⟩ := List.mem_map.1 hr
        rw [if_neg]
        · exact h.kept r₀ hr₀
        -- no record lies in that page
        · rintro ⟨a, ha, -, hpage⟩
          have := hidle.linked.within r₀ hr₀ a ha
          simp only [storeStart, storeEnd, pageWords] at *
          omega
    · intro a ha ha'
      cases now with
      | false => rfl
      | true => exact wipe_config l.flash ha'
  · rw [sdEvent_of_none hsd]
    exact h

/-- An event of the soft device while a slot is written. -/
theorem FirstLap.slot (h : FirstLap l) {flash : ℕ → Word} {i k : ℕ}
    (hslot : WritingSlot l flash i k) (e : SdEvent) : FirstLap (sdEvent l e) := by
  obtain ⟨k', hslot'⟩ := hslot.step e
  obtain ⟨t, spare, hidle⟩ := hslot.idle
  obtain ⟨t', spare', hidle'⟩ := hslot'.idle
  have hflash : ∀ a, storeStart ≤ a → a < storeEnd → (sdEvent l e).flash a = l.flash a := by
    intro a _ ha
    rw [hslot'.flash_eq, hslot.flash_eq, burn_slot_store flash i _ ha, burn_slot_store flash i _ ha]
  rcases hslot.op with ⟨j, -, op⟩ | ⟨-, hsd, -⟩
  · obtain ⟨flash', sd', fc, tries, written', heq, -⟩ := op.step e
    have hw := sdEvent_words l e
    refine h.congr hidle.state hidle'.state ?_ ?_ hw ?_ ?_ hflash <;> rw [heq]
    exact h.kept
  · rw [sdEvent_of_none hsd]
    exact h

end Log

/-! ## The history only grows -/

section History

variable {s s' : Store}

/-- Records are added to the history, and none is taken back. -/
theorem Round.words_grow (h : Round s s') : s.log.words <+: s'.log.words := by
  cases h with
  | init0 =>
    obtain ⟨b, hinit⟩ := init0_eq s
    obtain ⟨st, hst⟩ := deliverAll_eq (rawRecords storeRegion s.log.flash) s.log
    rw [hinit, hst, setUpWrite]
    split <;> exact List.prefix_rfl
  | slot => exact List.prefix_rfl
  | full =>
    obtain ⟨-, -, -, hw⟩ := appendRecord_kept rtConfig
      (configFields (copyConfig (takeConfig s)).log.staging.config) (copyConfig (takeConfig s)).log
    exact ⟨_, hw.symm⟩
  | part p =>
    obtain ⟨-, -, -, hw⟩ := appendRecord_kept p.type (p.fields s.log.staging.su) s.log
    exact ⟨_, hw.symm⟩
  | go =>
    obtain ⟨-, -, -, hw⟩ := wrGo_kept s.log
    exact ⟨[], (List.append_nil _).trans hw.symm⟩
  | erase => exact List.prefix_rfl
  | rewrite => exact List.prefix_rfl
  | saved => exact List.prefix_rfl

theorem words_event {e : StoreEvent} (he : e ≠ .loop) :
    (storeStep s e).log.words = s.log.words := by
  cases e with
  | loop => exact absurd rfl he
  | device e => exact sdEvent_words s.log e
  | tick | change | factory | save | info | chunk | exec => rfl

/-- **An event** adds to the history. -/
theorem Resting.step (h : Resting s) (e : StoreEvent) :
    Resting (storeStep s e) ∧ s.log.words <+: (storeStep s e).log.words := by
  by_cases he : e = .loop
  · subst he
    refine @storeSuperLoop_inv (fun s' => Resting s' ∧ s.log.words <+: s'.log.words)
      (fun _ h => h.1) (fun _ _ h hround => ?_) _ ⟨h, List.prefix_rfl⟩
    exact ⟨hround.resting h.1, h.2.trans hround.words_grow⟩
  · refine ⟨?_, (words_event he) ▸ List.prefix_rfl⟩
    cases e with
    | loop => exact absurd rfl he
    | device | tick | change | factory | save | info | chunk | exec =>
      exact ⟨h.state, h.savedState⟩

theorem wordCount_le {l l' : Log} (h : l.words <+: l'.words) : l.wordCount ≤ l'.wordCount := by
  obtain ⟨ws, hws⟩ := h
  rw [Log.wordCount, Log.wordCount, ← hws, List.map_append, List.sum_append]
  exact Nat.le_add_right _ _

end History

/-! ## The store -/

/-- The store has been erased, and the log has not been used. -/
structure Fresh (l : Log) : Prop where
  records : l.records = []
  advances : l.advances = 0
  blank : ∀ a, storeStart ≤ a → a < storeEnd → l.flash a = erasedWord

/-- **The store on its first lap.** -/
structure OnLap (s : Store) : Prop where
  sound : Sound s
  lap : (s.state = .init0 ∧ Fresh s.log) ∨ (s.state ≠ .init0 ∧ FirstLap s.log)

section Store

variable {s s' : Store}

theorem OnLap.advances_lt (h : OnLap s) (hfit : s.log.wordCount ≤ lapWords) :
    s.log.advances < 2 ^ 26 - 1 := by
  rcases h.lap with ⟨-, hfresh⟩ | ⟨-, hlap⟩
  · rw [hfresh.advances]
    decide
  · have := hlap.advances
    simp only [lapWords, storePages, pageWords] at *
    omega

/-- A log that begins where the store does. -/
theorem firstLap_new {l : Log} (hstate : l.wrState = .idle) (hptr : l.currentWrite = storeStart)
    (hseq : l.sequence = 0#32) (h : Fresh l) : FirstLap l := by
  refine ⟨Or.inl hstate, ⟨0, ?_⟩, h.advances.le.trans (Nat.zero_le _), ?_⟩
  · have hcount : l.wordCount = 0 := by
      rw [Log.wordCount, Log.words, h.records]
      rfl
    have hzero : l.pen.sequence.toNat = 0 := by
      rw [Log.pen, hseq]
      rfl
    rw [goal_idle hstate, hcount]
    refine ⟨by rw [hzero], hptr, ?_, Nat.zero_le _, fun a ha ha' => ?_⟩
    · rw [hzero]
      decide
    · exact h.blank a (by rw [hzero] at ha; omega) ha'
  · rw [h.records]
    exact fun r hr => absurd hr List.not_mem_nil

/-- **`INIT0`** on an erased store. -/
theorem Fresh.init0 (h : Fresh s.log) (hoff : Off s.log) : FirstLap (App.init0 s).log := by
  have hdisk := disk_empty h.blank
  obtain ⟨b, hinit⟩ := init0_eq s
  obtain ⟨st, hst⟩ := deliverAll_eq (rawRecords storeRegion s.log.flash) s.log
  have hlog := hdisk.setUpWrite_eq
    { deliverAll App.deliver (rawRecords storeRegion s.log.flash) s.log with buf := b }
  rw [hinit, hlog, hst]
  exact firstLap_new hoff.state rfl rfl ⟨h.records, h.advances, h.blank⟩

/-- The copy of the configuration in the staging area. -/
theorem FirstLap.staging {l : Log} (h : FirstLap l) (st : Staging) :
    FirstLap { l with staging := st } := ⟨h.state, h.pen, h.advances, h.kept⟩

/-- **A round on the first lap.** -/
theorem OnLap.round (h : OnLap s) (hround : Round s s') (hfit : s'.log.wordCount ≤ lapWords) :
    OnLap s' := by
  have hle := wordCount_le hround.words_grow
  refine ⟨h.sound.round hround (h.advances_lt (hle.trans hfit)), Or.inr ?_⟩
  have hlap : s.state ≠ .init0 → FirstLap s.log := fun hs =>
    (h.lap.resolve_left fun hinit => hs hinit.1).2
  cases hround with
  | init0 hs =>
    refine ⟨State.noConfusion, ?_⟩
    rcases h.lap with ⟨-, hfresh⟩ | ⟨hne, -⟩
    · exact hfresh.init0 (h.sound.stage.off hs)
    · exact absurd hs hne
  | slot hs =>
    have hl := (hlap (by rw [hs]; exact State.noConfusion)).staging
      (copyConfig (takeConfig s)).log.staging
    exact ⟨State.noConfusion, hl.state, hl.pen, hl.advances, hl.kept⟩
  | full hs hflag hfull =>
    have hround := Round.full hs hflag hfull
    refine ⟨hround.ne_init0 h.sound.stage.resting (by rw [hs]; exact State.noConfusion), ?_⟩
    have hl := (hlap (by rw [hs]; exact State.noConfusion)).staging
      (copyConfig (takeConfig s)).log.staging
    obtain ⟨hsd, t, spare, hidle⟩ : Free (copyConfig (takeConfig s)).log :=
      (h.sound.stage.free hs).copyConfig
    refine hl.append hidle hsd
      ((Rec.config (copyConfig (takeConfig s)).log.staging.config).isRecord _) ?_
    exact (wordCount_append rtConfig _ (copyConfig (takeConfig s)).log).ge.trans hfit
  | part p st hs hflag =>
    have hround := Round.part p st hs hflag
    refine ⟨hround.ne_init0 h.sound.stage.resting (by rw [hs]; exact State.noConfusion), ?_⟩
    obtain ⟨hsd, t, spare, hidle⟩ := h.sound.stage.free hs
    refine (hlap (by rw [hs]; exact State.noConfusion)).append hidle hsd (p.isRecord _ _) ?_
    exact (wordCount_append p.type _ s.log).ge.trans hfit
  | go hs hfc =>
    have hround := Round.go hs hfc
    refine ⟨hround.ne_init0 h.sound.stage.resting (by rw [hs]; exact State.noConfusion), ?_⟩
    exact (hlap (by rw [hs]; exact State.noConfusion)).go (h.sound.stage.writing hs).1 hfc
  | erase hs =>
    have hl := hlap (by rw [hs]; exact State.noConfusion)
    exact ⟨State.noConfusion, hl.state, hl.pen, hl.advances, hl.kept⟩
  | rewrite hs =>
    have hl := hlap (by rw [hs]; exact State.noConfusion)
    exact ⟨State.noConfusion, hl.state, hl.pen, hl.advances, hl.kept⟩
  | saved hs =>
    have hl := hlap (by rw [hs]; exact State.noConfusion)
    exact ⟨State.noConfusion, hl.state, hl.pen, hl.advances, hl.kept⟩

/-- **Other events on the first lap.** -/
theorem OnLap.event (h : OnLap s) {e : StoreEvent} (he : e ≠ .loop)
    (hfit : s.log.wordCount ≤ lapWords) : OnLap (storeStep s e) := by
  have hadv := h.advances_lt hfit
  have hsame := (storeStep_history s he).1
  refine ⟨(h.sound.between.step e).sound (hsame ▸ hadv), ?_⟩
  cases e with
  | loop => exact absurd rfl he
  | device e =>
    change (s.state = .init0 ∧ Fresh (sdEvent s.log e)) ∨
      (s.state ≠ .init0 ∧ FirstLap (sdEvent s.log e))
    have hfree : s.log.sd = none → (s.state = .init0 ∧ Fresh (sdEvent s.log e)) ∨
        (s.state ≠ .init0 ∧ FirstLap (sdEvent s.log e)) := by
      intro hsd
      rw [sdEvent_of_none hsd]
      exact h.lap
    rcases h.sound.stage.states with hs | hs | hs | hs | hs | hs
    · exact hfree (h.sound.stage.off hs).sd
    · exact hfree (h.sound.stage.free hs).1
    · obtain ⟨hne, hlap⟩ := h.lap.resolve_left fun hinit => by
        rw [hs] at hinit
        exact State.noConfusion hinit.1
      exact Or.inr ⟨hne, hlap.device (h.sound.stage.writing hs).1 e⟩
    · exact hfree (h.sound.stage.copied hs).1.1
    · obtain ⟨hne, hlap⟩ := h.lap.resolve_left fun hinit => by
        rw [hs] at hinit
        exact State.noConfusion hinit.1
      exact Or.inr ⟨hne, hlap.erasing (h.sound.stage.erasing hs).1 e⟩
    · obtain ⟨hne, hlap⟩ := h.lap.resolve_left fun hinit => by
        rw [hs] at hinit
        exact State.noConfusion hinit.1
      obtain ⟨⟨flash, i, k, hslot⟩, -⟩ := h.sound.stage.slot hs
      exact Or.inr ⟨hne, hlap.slot hslot e⟩
  | tick | change | factory | save => exact h.lap
  | info | chunk | exec =>
    rcases h.lap with ⟨hs, hfresh⟩ | ⟨hs, hlap⟩
    · exact Or.inl ⟨hs, hfresh.records, hfresh.advances, hfresh.blank⟩
    · exact Or.inr ⟨hs, hlap.staging _⟩

/-- **Each event keeps the store on its first lap**, as long as the records
fit. -/
theorem onLap_step (h : Resting s ∧ (s.log.wordCount ≤ lapWords → OnLap s)) (e : StoreEvent) :
    Resting (storeStep s e) ∧
      ((storeStep s e).log.wordCount ≤ lapWords → OnLap (storeStep s e)) := by
  by_cases he : e = .loop
  · subst he
    refine @storeSuperLoop_inv (fun s => Resting s ∧ (s.log.wordCount ≤ lapWords → OnLap s))
      (fun _ h => h.1) (fun _ _ h hround => ⟨hround.resting h.1, fun hfit => ?_⟩) _ h
    exact (h.2 ((wordCount_le hround.words_grow).trans hfit)).round hround hfit
  · obtain ⟨hrest, hgrow⟩ := h.1.step e
    exact ⟨hrest, fun hfit => (h.2 ((wordCount_le hgrow).trans hfit)).event he
      ((wordCount_le hgrow).trans hfit)⟩

theorem onLap_first {flash : ℕ → Word} (h : Erased flash) : OnLap (Store.first flash) :=
  ⟨sound_first h, Or.inl ⟨rfl, rfl, rfl, fun a h₁ h₂ => h a h₁ (by
    simp only [configStart, storeEnd] at *
    omega)⟩⟩

theorem onLap_run {flash : ℕ → Word} (h : Erased flash) (es : List StoreEvent)
    (hfit : (Runs.run storeStep (Store.first flash) es).log.wordCount ≤ lapWords) :
    OnLap (Runs.run storeStep (Store.first flash) es) :=
  (Runs.inv_run (P := fun s => Resting s ∧ (s.log.wordCount ≤ lapWords → OnLap s))
    (fun _ e hs => onLap_step hs e)
    ⟨(sound_first h).stage.resting, fun _ => onLap_first h⟩ es).2 hfit

/-- **Nothing is recycled on the first lap.** From an erased store, as long as
the records handed to `wrGo` take no more words than the pages have but for
their sequence records, no record is erased; and at rest the write pointer is
where the words end. -/
theorem first_lap {flash : ℕ → Word} (h : Erased flash) (es : List StoreEvent)
    (hfit : (Runs.run storeStep (Store.first flash) es).log.wordCount ≤ lapWords) :
    (∀ r ∈ (Runs.run storeStep (Store.first flash) es).log.records, r.erased = false) ∧
      ((Runs.run storeStep (Store.first flash) es).state = .idle →
        (Runs.run storeStep (Store.first flash) es).log.currentWrite = storeStart +
          (Runs.run storeStep (Store.first flash) es).log.wordCount +
          (Runs.run storeStep (Store.first flash) es).log.sequence.toNat) := by
  obtain ⟨hsound, ⟨hinit, hfresh⟩ | ⟨-, hlap⟩⟩ := onLap_run h es hfit
  · refine ⟨?_, fun hs => ?_⟩
    · rw [hfresh.records]
      exact fun r hr => absurd hr List.not_mem_nil
    · rw [hinit] at hs
      cases hs
  · refine ⟨hlap.kept, fun hs => ?_⟩
    obtain ⟨pos, hpen⟩ := hlap.pen
    obtain ⟨-, t, spare, hidle⟩ := hsound.stage.free hs
    rw [goal_idle hidle.state] at hpen
    rw [Nat.add_assoc]
    exact hpen.pos_eq ▸ hpen.ptr

set_option maxRecDepth 100000 in
theorem first_lap_apart :
    (∀ r ∈ (Runs.run storeStep (Store.first fun _ => erasedWord) apartRun).log.records,
        r.erased = false) ∧
      ((Runs.run storeStep (Store.first fun _ => erasedWord) apartRun).state = .idle →
        (Runs.run storeStep (Store.first fun _ => erasedWord) apartRun).log.currentWrite =
          storeStart +
            (Runs.run storeStep (Store.first fun _ => erasedWord) apartRun).log.wordCount +
            (Runs.run storeStep (Store.first fun _ => erasedWord) apartRun).log.sequence.toNat) :=
  first_lap (fun _ _ _ => rfl) apartRun (by decide)

end Store

end App

end AntTracer
