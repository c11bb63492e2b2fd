import AntTracer.App.Phases

/-!
# The log survives power losses

Records are appended one after the other, and the power may be lost and come
back at any moment. At every start `readFlash` accepts, in order, each
completed record whose pages have not been recycled, and apart from completed
records only ones whose write a power loss cut (`recovered`).
-/

namespace AntTracer

namespace App

/-! ## Start up -/

/-- **`INIT0` finds the end of the tape.** -/
theorem Disk.setUpWrite_eq {l : Log} {t : LogTape} {spare : List Word} (h : Disk t spare l.flash)
    (l' : Log) :
    setUpWrite (readFlash logReader storeRegion l).2.1 (readFlash logReader storeRegion l).2.2 l' =
      { l' with currentWrite := tailOf t, sequence := BitVec.ofNat 32 t.hi } := by
  have hptr := readFlash_fst l
  have hle := h.laid.le
  rcases Nat.lt_or_ge t.lo t.hi with hlt | hge
  · obtain ⟨hnew, hseq, hscan⟩ := h.readFlash_bounds hlt
    rw [if_pos hnew, hseq, hscan] at hptr
    have htail : tailOf t ≠ 0 := by
      rw [tailOf, if_neg (by omega)]
      simp only [pageAt, storeStart, pageWords]
      omega
    rw [hptr]
    exact if_neg htail
  · have heq : t.lo = t.hi := by omega
    have hhi := h.new heq
    rw [if_neg (not_not.2 (h.newp_eq heq))] at hptr
    rw [hptr, tailOf, if_pos hhi, hhi]
    rfl

/-- **Start up** finds the end of the tape, and accepts what is on it. -/
theorem Disk.boot {s : Log} {t : LogTape} {spare : List Word} (h : Disk t spare s.flash)
    (hlinked : Linked t (noteStatus .cut s.records)) (hadv : t.hi ≤ s.advances) :
    Idle (boot s) t spare ∧ (boot s).sd = none ∧ (boot s).records = noteStatus .cut s.records ∧
      (boot s).accepted = (t.contents.map Prod.snd).filter Accepts := by
  obtain ⟨st, b, hread⟩ := readFlash_eq (powerLoss s)
  have hset := Disk.setUpWrite_eq (l := powerLoss s) h
  rw [show (powerLoss s).flash = s.flash from rfl, h.rawRecords_eq] at hread
  have hsettled : ∀ r ∈ noteStatus .cut s.records, r.status ≠ .writing := by
    intro r hr
    obtain ⟨r₀, -, rfl⟩ := List.mem_map.1 hr
    split
    · simp
    · assumption
  rw [App.boot, hset, hread]
  exact ⟨⟨h, hlinked, hsettled, rfl, rfl, rfl, rfl, hadv⟩, rfl, rfl, rfl⟩

/-- A tape without pages. -/
def emptyTape : LogTape := ⟨0, 0, fun _ => [], fun _ => [], fun _ => []⟩

/-- An erased store holds the empty tape. -/
theorem disk_empty {flash : ℕ → Word}
    (h : ∀ a, storeStart ≤ a → a < storeEnd → flash a = erasedWord) : Disk emptyTape [] flash := by
  have hblank : ∀ k < storePages, storeRegion.Holds flash k [] := by
    intro k hk
    rw [holds_nil_iff]
    intro i hi
    simp only [pageAt, storeStart, storeEnd, storePages, pageWords] at *
    exact h _ (by omega) (by omega)
  have hno : ∀ u, emptyTape.lo ≤ u → ¬ u < emptyTape.hi := fun u _ hu => Nat.not_lt_zero u hu
  exact ⟨⟨le_rfl, fun u h₁ h₂ => absurd h₂ (hno u h₁), fun u h₁ h₂ => absurd h₂ (hno u h₁),
    fun u h₁ h₂ => absurd h₂ (hno u h₁), nofun, fun u h₁ h₂ => absurd h₂ (hno u h₁), rfl⟩,
    Nat.zero_le _, fun _ => rfl, fun u h₁ h₂ => absurd h₂ (hno u h₁),
    fun u h₁ h₂ => absurd h₂ (hno u h₁), fun _ => hblank 0 (by decide), rfl,
    fun k hk _ => hblank k hk⟩

theorem linked_empty : Linked emptyTape [] :=
  ⟨List.Pairwise.nil, fun u _ h₂ => absurd h₂ (Nat.not_lt_zero u),
    fun u _ h₂ => absurd h₂ (Nat.not_lt_zero u), nofun, nofun⟩

/-! ## The records -/

/-- The records `StoreSuperLoop` formats. -/
inductive Rec
  | config (c : Config)
  | header (i : SuInfo)
  | chunk (d : SuData) (full : d.data.length = oqSuChunk)
  | execute (x : SuExec)

/-- The type of a record. -/
def Rec.type : Rec → Word
  | .config _ => rtConfig
  | .header _ => rtSuHdr
  | .chunk _ _ => rtSuData
  | .execute _ => rtSuExec

/-- The fields of a record. -/
def Rec.fields : Rec → List (ℕ × Word)
  | .config c => configFields c
  | .header i => suInfoFields i
  | .chunk d _ => suDataFields d
  | .execute x => suExecFields x

/-- The words of a record. -/
def Rec.words (r : Rec) : List Word := recordWords r.type r.fields .init

theorem isRecord_recordWords (ty : Word) {fs : List (ℕ × Word)} (b : Buffer)
    (hty : ty &&& rtMask = ty) (hne : ty ≠ rtSequence) (hw : fs.map Prod.fst = typeWidths ty)
    (hroom : fieldWords (typeWidths ty) < bufferSize) : IsRecord (recordWords ty fs b) := by
  have hend : (endPos (fs.map Prod.fst) 0 rtShift).1 < bufferSize := by
    rw [hw]
    rw [fieldWords] at hroom
    omega
  have htype : typeOf (recordWords ty fs b) = ty := by
    rw [typeOf, recordType_recordWords fs hend, hty]
  have hlen : (recordWords ty fs b).length = fieldWords (typeWidths ty) := by
    rw [length_recordWords ty hend, hw]
  exact ⟨isFrame_recordWords fs hend (by rw [hty]; exact hne), by rw [htype]; exact hne,
    by rw [htype]; exact hlen, by rw [hlen]; exact hroom⟩

theorem Rec.room (r : Rec) : (endPos (r.fields.map Prod.fst) 0 rtShift).1 < bufferSize := by
  cases r with
  | config c => exact widths_configFields c ▸ config_room
  | header i => exact suInfo_room
  | chunk d full => exact widths_suDataFields full ▸ suData_room
  | execute x => exact suExec_room

theorem Rec.type_and_mask (r : Rec) : r.type &&& rtMask = r.type := by
  cases r <;> simp only [Rec.type] <;> decide

/-- The type comes back. -/
theorem Rec.typeOf_words (r : Rec) (b : Buffer) :
    typeOf (recordWords r.type r.fields b) = r.type :=
  (recordType_recordWords r.fields r.room).trans r.type_and_mask

/-- **What `StoreSuperLoop` formats is a record.** -/
theorem Rec.isRecord (r : Rec) (b : Buffer) : IsRecord (recordWords r.type r.fields b) := by
  cases r with
  | config c =>
    exact isRecord_recordWords rtConfig b (by decide) (by decide) (widths_configFields c)
      (by decide)
  | header i => exact isRecord_recordWords rtSuHdr b (by decide) (by decide) rfl (by decide)
  | chunk d full =>
    exact isRecord_recordWords rtSuData b (by decide) (by decide) (widths_suDataFields full)
      (by decide)
  | execute x => exact isRecord_recordWords rtSuExec b (by decide) (by decide) rfl (by decide)

/-! ## The machine -/

/-- What happens to the log. -/
inductive LogEvent
  /-- a record is formatted and handed to `wrGo` -/
  | append (r : Rec)
  /-- the soft device works, or reports -/
  | device (e : SdEvent)
  /-- `wrGo` is called again -/
  | go
  /-- the power is lost, and comes back -/
  | power

/-- A step of the log. The next record is appended when `wrGo` is through
with the last one. -/
def logStep (s : Log) : LogEvent → Log
  | .append r => if s.wrState = .idle then (appendRecord r.type r.fields s).1 else s
  | .device e => sdEvent s e
  | .go => if s.wrState ≠ .idle ∧ s.flashComplete = true then (wrGo s).1 else s
  | .power => boot s

/-- `wrGo` is idle, and so is the soft device, or it is at a record. -/
def Steady (s : Log) : Prop := (s.sd = none ∧ ∃ t spare, Idle s t spare) ∨ Working s

theorem Went.steady {res : Log × Bool} (h : Went res) : Steady res.1 :=
  h.elim (fun h => Or.inr h.2) fun h => Or.inl h.2

/-- **A power loss at any moment leaves a tape.** -/
theorem Steady.cut {s : Log} (h : Steady s) (hadv : s.advances < 2 ^ 26 - 1) :
    ∃ t spare, Disk t spare s.flash ∧ Linked t (noteStatus .cut s.records) ∧ t.hi ≤ s.advances := by
  rcases h with ⟨-, t, spare, hidle⟩ | hwork
  · refine ⟨t, spare, hidle.disk, ?_, hidle.advances⟩
    rw [noteStatus_settled hidle.settled]
    exact hidle.linked
  · exact hwork.cut hadv

/-- **Every step goes from one phase of a write to another.** -/
theorem Steady.step {s : Log} (h : Steady s) (hadv : s.advances < 2 ^ 26 - 1) (e : LogEvent) :
    Steady (logStep s e) := by
  cases e with
  | append r =>
    rw [logStep]
    split
    · rename_i hstate
      rcases h with ⟨hsd, t, spare, hidle⟩ | hwork
      · exact (hidle.append hsd (r.isRecord s.buf)).steady
      · cases hwork with
        | erasing _ _ state => rw [state] at hstate; cases hstate
        | writing w => rw [w.state] at hstate; cases hstate
    · exact h
  | device e =>
    rcases h with ⟨hsd, hidle⟩ | hwork
    · rw [logStep, sdEvent_of_none hsd]
      exact Or.inl ⟨hsd, hidle⟩
    · exact Or.inr (hwork.step e)
  | go =>
    rw [logStep]
    split
    · rename_i hgo
      rcases h with ⟨-, t, spare, hidle⟩ | hwork
      · exact absurd hidle.state hgo.1
      · exact (hwork.go hgo.2 hadv).steady
    · exact h
  | power =>
    obtain ⟨t, spare, hdisk, hlinked, hhi⟩ := h.cut hadv
    obtain ⟨hidle, hsd, -⟩ := hdisk.boot hlinked hhi
    exact Or.inl ⟨hsd, t, spare, hidle⟩

/-- A booted log on an erased store. -/
theorem steady_boot {flash : ℕ → Word}
    (hflash : ∀ a, storeStart ≤ a → a < storeEnd → flash a = erasedWord) :
    Steady (boot (Log.off flash)) := by
  obtain ⟨hidle, hsd, -⟩ := Disk.boot (s := Log.off flash) (disk_empty hflash) linked_empty
    (Nat.zero_le _)
  exact Or.inl ⟨hsd, _, _, hidle⟩

/-! ## What `wrGo` leaves alone -/

/-- The words handed to `wrGo`. -/
def Log.words (s : Log) : List (List Word) := s.records.map Appended.words

/-- The flash, the staging area and the history of writes and of what was
handed over are the same. -/
structure Kept (s s' : Log) : Prop where
  flash : s'.flash = s.flash
  staging : s'.staging = s.staging
  written : s'.written = s.written
  words : s'.words = s.words

theorem words_noteStart (a : ℕ) (rs : List Appended) :
    (noteStart a rs).map Appended.words = rs.map Appended.words := by
  rw [noteStart, List.map_map]
  refine List.map_congr_left fun r _ => ?_
  simp only [Function.comp]
  split <;> rfl

theorem words_noteStatus (status : Status) (rs : List Appended) :
    (noteStatus status rs).map Appended.words = rs.map Appended.words := by
  rw [noteStatus, List.map_map]
  refine List.map_congr_left fun r _ => ?_
  simp only [Function.comp]
  split <;> rfl

theorem wrDone_kept (status : Status) {s s' : Log} (h : Kept s s') : Kept s (wrDone status s').1 :=
  ⟨h.flash, h.staging, h.written, (words_noteStatus status s'.records).trans h.words⟩

theorem wrWrite_kept (ptr cnt : ℕ) {s s' : Log} (h : Kept s s') :
    Kept s (wrWrite ptr cnt s').1 := by
  rw [wrWrite]
  split
  · exact wrDone_kept _ ⟨h.flash, h.staging, h.written, h.words⟩
  · by_cases hneed : s'.needSeq = true
    · simp only [hneed, if_true]
      exact ⟨h.flash, h.staging, h.written, (words_noteStart ptr s'.records).trans h.words⟩
    · simp only [hneed]
      exact ⟨h.flash, h.staging, h.written, (words_noteStart ptr s'.records).trans h.words⟩

theorem wrErase_kept (ptr pe remain cnt : ℕ) {s s' : Log} (h : Kept s s') :
    Kept s (wrErase ptr pe remain cnt s').1 := by
  have hsame : ∀ n b w, Kept s { s' with currentWrite := n, needSeq := b, wrState := w } :=
    fun _ _ _ => ⟨h.flash, h.staging, h.written, h.words⟩
  unfold wrErase
  dsimp only
  generalize (if pe ≥ storeEnd then storeStart else pe) = next
  split_ifs
  · exact ⟨h.flash, h.staging, h.written, h.words⟩
  · exact wrWrite_kept _ _ (hsame _ _ _)
  · exact wrWrite_kept _ _ (hsame s'.currentWrite _ _)
  · exact wrWrite_kept _ _ (hsame s'.currentWrite s'.needSeq _)

/-- **`wrGo` leaves the flash to the soft device.** -/
theorem wrGo_kept (s : Log) : Kept s (wrGo s).1 := by
  have hsame : ∀ w, Kept s { s with wrState := w } := fun _ => ⟨rfl, rfl, rfl, rfl⟩
  have hdone : Kept s (wrDone .failed s).1 := wrDone_kept _ (hsame s.wrState)
  unfold wrGo
  cases s.wrState with
  | idle =>
    dsimp only
    split
    · exact hsame s.wrState
    · exact wrErase_kept _ _ _ _ (hsame _)
  | erase1 => exact wrErase_kept _ _ _ _ (hsame _)
  | erase2 => exact wrErase_kept _ _ _ _ (hsame _)
  | write1 => exact wrWrite_kept _ _ (hsame _)
  | write2 => exact wrWrite_kept _ _ (hsame _)
  | erase3 => exact hdone
  | write3 => exact hdone

/-- A record is handed over. -/
theorem appendRecord_kept (ty : Word) (fs : List (ℕ × Word)) (s : Log) :
    (appendRecord ty fs s).1.flash = s.flash ∧ (appendRecord ty fs s).1.staging = s.staging ∧
      (appendRecord ty fs s).1.written = s.written ∧
      (appendRecord ty fs s).1.words = s.words ++ [recordWords ty fs s.buf] := by
  obtain ⟨h₁, h₂, h₃, h₄⟩ := wrGo_kept { s with
    buf := wrFields fs (wrNew ty s.buf)
    records := s.records ++ [⟨recordWords ty fs s.buf, none, .writing, false⟩] }
  refine ⟨h₁, h₂, h₃, h₄.trans ?_⟩
  rw [Log.words, List.map_append]
  rfl

/-- **An event of the soft device** notes nothing but pages erased. -/
theorem sdEvent_map {β : Type*} (f : Appended → β)
    (hf : ∀ r : Appended, f { r with erased := true } = f r)
    (s : Log) (e : SdEvent) : (sdEvent s e).records.map f = s.records.map f := by
  have herase : ∀ (page : ℕ) (s : Log), (erasePage page s).records.map f = s.records.map f := by
    intro page s
    change (noteErased page s.records).map f = _
    rw [noteErased, List.map_map]
    refine List.map_congr_left fun r _ => ?_
    simp only [Function.comp]
    split
    · exact hf r
    · rfl
  have hraw : ∀ (dst cnt : ℕ) (src : Source) (s : Log),
      (flashWriteRaw dst src cnt s).records = s.records := by
    intro dst cnt src s
    obtain ⟨flash, h⟩ := program_flash src dst s (List.range cnt) s
    rw [flashWriteRaw, h]
  cases e with
  | work =>
    rw [sdEvent, sdStep]
    split
    · exact herase _ s
    · split <;> rfl
    · rfl
  | success =>
    rw [sdEvent, sdSuccess]
    split
    · rfl
    · split <;> rfl
    · rfl
  | error =>
    rw [sdEvent, sdError]
    split
    · unfold storeFlashed
      rw [if_neg Bool.false_ne_true]
      split
      · rfl
      split
      · dsimp only
        split <;> split <;> rfl
      · dsimp only
        by_cases he : s.flashEraseOp = true
        · simp only [he, if_true]
          by_cases hw : s.flashWriteOp = true
          · rw [if_pos (by exact hw), hraw]
            exact herase _ _
          · rw [if_neg (by exact hw)]
            exact herase _ _
        · simp only [he]
          by_cases hw : s.flashWriteOp = true
          · rw [if_pos (by exact hw), if_neg Bool.false_ne_true, hraw]
          · rw [if_neg (by exact hw)]
            rfl
    · rfl

theorem sdEvent_words (s : Log) (e : SdEvent) : (sdEvent s e).words = s.words :=
  sdEvent_map Appended.words (fun _ => rfl) s e

/-! ## Page advances -/

/-- A step writes at most one sequence record. -/
def Advances (s s' : Log) : Prop := s.advances ≤ s'.advances ∧ s'.advances ≤ s.advances + 1

theorem wrWrite_advances (ptr cnt : ℕ) {s s' : Log} (h : s'.advances = s.advances) :
    Advances s (wrWrite ptr cnt s').1 := by
  rw [Advances, ← h, wrWrite]
  split
  · exact ⟨le_rfl, Nat.le_succ _⟩
  · by_cases hneed : s'.needSeq = true
    · simp only [hneed, if_true]
      exact ⟨Nat.le_succ _, le_rfl⟩
    · simp only [hneed]
      exact ⟨le_rfl, Nat.le_succ _⟩

theorem wrErase_advances (ptr pe remain cnt : ℕ) {s s' : Log} (h : s'.advances = s.advances) :
    Advances s (wrErase ptr pe remain cnt s').1 := by
  unfold wrErase
  dsimp only
  generalize (if pe ≥ storeEnd then storeStart else pe) = next
  split_ifs
  · exact ⟨h.ge, h.le.trans (Nat.le_succ _)⟩
  · exact wrWrite_advances _ _ h
  · exact wrWrite_advances _ _ h
  · exact wrWrite_advances _ _ h

theorem wrGo_advances {s s' : Log} (h : s'.advances = s.advances) : Advances s (wrGo s').1 := by
  have hsame : Advances s s' := ⟨h.ge, h.le.trans (Nat.le_succ _)⟩
  unfold wrGo
  cases s'.wrState with
  | idle =>
    dsimp only
    split
    · exact hsame
    · exact wrErase_advances _ _ _ _ h
  | erase1 => exact wrErase_advances _ _ _ _ h
  | erase2 => exact wrErase_advances _ _ _ _ h
  | erase3 => exact hsame
  | write1 => exact wrWrite_advances _ _ h
  | write2 => exact wrWrite_advances _ _ h
  | write3 => exact hsame

theorem appendRecord_advances (ty : Word) (fs : List (ℕ × Word)) (s : Log) :
    Advances s (appendRecord ty fs s).1 := wrGo_advances rfl

theorem boot_flash (s : Log) : (boot s).flash = s.flash := by
  obtain ⟨st, b, hread⟩ := readFlash_eq (powerLoss s)
  rw [boot, setUpWrite]
  split <;> simp only [hread] <;> rfl

theorem boot_advances (s : Log) : (boot s).advances = s.advances := by
  obtain ⟨st, b, hread⟩ := readFlash_eq (powerLoss s)
  rw [boot, setUpWrite]
  split <;> simp only [hread] <;> rfl

theorem logStep_advances (s : Log) (e : LogEvent) : Advances s (logStep s e) := by
  cases e with
  | append r =>
    rw [logStep]
    split
    · exact appendRecord_advances _ _ _
    · exact ⟨le_rfl, Nat.le_succ _⟩
  | device e =>
    obtain ⟨flash, sd, fc, tries, rs, written, refused, h⟩ := sdEvent_beside s e
    rw [logStep, h]
    exact ⟨le_rfl, Nat.le_succ _⟩
  | go =>
    rw [logStep]
    split
    · exact wrGo_advances rfl
    · exact ⟨le_rfl, Nat.le_succ _⟩
  | power =>
    rw [logStep, Advances, boot_advances]
    exact ⟨le_rfl, Nat.le_succ _⟩

theorem run_advances_ge (es : List LogEvent) (s : Log) :
    s.advances ≤ (Runs.run logStep s es).advances :=
  Runs.inv_run (P := fun s' => s.advances ≤ s'.advances)
    (fun s' e hs => hs.trans (logStep_advances s' e).1) le_rfl es

theorem run_advances_le (es : List LogEvent) : ∀ s : Log,
    (Runs.run logStep s es).advances ≤ s.advances + es.length := by
  induction es with
  | nil => exact fun s => le_rfl
  | cons e es ih =>
    intro s
    have h₁ := (logStep_advances s e).2
    have h₂ := ih (logStep s e)
    rw [Runs.run_cons, List.length_cons]
    omega

/-! ## What is recovered -/

/-- What start up accepted is an order-preserving selection of the appended
records; it has every completed record no word of which was erased since, and
apart from completed records only ones cut by a power loss. -/
def Recovered (s : Log) : Prop :=
  ∃ sel : List ℕ, sel.Pairwise (· < ·) ∧
    s.accepted.map some = sel.map (fun i => s.records[i]?.map Appended.words) ∧
    (∀ i r, s.records[i]? = some r → r.status = .completed → r.erased = false → i ∈ sel) ∧
    ∀ i ∈ sel, ∃ r, s.records[i]? = some r ∧ (r.status = .completed ∨ r.status = .cut)

/-- The accepted frames of a tape are the tagged ones. -/
theorem Linked.accepted_eq {t : LogTape} {rs : List Appended} (h : Linked t rs) :
    ((t.contents.map Prod.snd).filter Accepts).map some =
      (tags t).map fun i => rs[i]?.map Appended.words := by
  have hmem : ∀ e ∈ t.contents, (∀ i, e.1 = some i → rs[i]?.map Appended.words = some e.2) ∧
      (Accepts e.2 ↔ e.1.isSome) := by
    rintro ⟨o, ws⟩ he
    obtain ⟨u, h₁, h₂, he⟩ := mem_contents.1 he
    cases o with
    | none => exact ⟨nofun, by simpa using h.piece u h₁ h₂ ws he⟩
    | some i =>
      obtain ⟨r, hr, hw, hacc, -⟩ := h.whole u h₁ h₂ i ws he
      refine ⟨fun j hj => ?_, by simpa using hacc⟩
      obtain rfl := Option.some.inj hj
      rw [hr, Option.map_some, hw]
  rw [tags]
  generalize t.contents = es at hmem
  induction es with
  | nil => rfl
  | cons e es ih =>
    obtain ⟨h₁, h₂⟩ := hmem e (List.mem_cons_self ..)
    have ih := ih fun f hf => hmem f (List.mem_cons_of_mem _ hf)
    rcases e with ⟨_ | i, ws⟩
    · rw [List.map_cons, List.filter_cons_of_neg (by simpa using h₂), ih]
      rfl
    · rw [List.map_cons, List.filter_cons_of_pos (by simpa using h₂), List.map_cons, ih]
      simp [h₁ i rfl]

/-- **What start up finds** on such a flash. -/
theorem Disk.recovered_boot {s : Log} {t : LogTape} {spare : List Word} (h : Disk t spare s.flash)
    (hlinked : Linked t (noteStatus .cut s.records)) (hadv : t.hi ≤ s.advances) :
    Recovered (App.boot s) := by
  obtain ⟨-, -, hrecords, haccepted⟩ := h.boot hlinked hadv
  refine ⟨tags t, hlinked.sorted, ?_, ?_, ?_⟩
  · rw [haccepted, hrecords]
    exact hlinked.accepted_eq
  · rw [hrecords]
    exact hlinked.kept
  · rw [hrecords]
    intro i hi
    obtain ⟨⟨o, ws⟩, he, rfl⟩ := List.mem_filterMap.1 hi
    obtain ⟨u, h₁, h₂, he⟩ := mem_contents.1 he
    obtain ⟨r, hr, -, -, hstatus, -⟩ := hlinked.whole u h₁ h₂ i ws he
    exact ⟨r, hr, hstatus⟩

/-- **At every start the records are there.** From an erased store, after any
records, any steps of the soft device and any power losses, start up accepts
an order-preserving selection of the appended records: all that were completed
and not recycled, and else only ones a power loss cut. -/
theorem recovered {flash : ℕ → Word} (hflash : ∀ a, storeStart ≤ a → a < storeEnd →
    flash a = erasedWord) (es : List LogEvent)
    (hadv : (Runs.run logStep (boot (Log.off flash)) es).advances < 2 ^ 26 - 1) :
    Recovered (boot (Runs.run logStep (boot (Log.off flash)) es)) := by
  -- as long as there are few page advances, the log is steady
  have hs : Steady (Runs.run logStep (boot (Log.off flash)) es) :=
    Runs.inv_run (P := fun s => s.advances < 2 ^ 26 - 1 → Steady s)
      (fun s e hinv hlt => by
        have hlt₀ := (logStep_advances s e).1.trans_lt hlt
        exact (hinv hlt₀).step hlt₀ e) (fun _ => steady_boot hflash) es hadv
  obtain ⟨t, spare, hdisk, hlinked, hhi⟩ := hs.cut hadv
  exact hdisk.recovered_boot hlinked hhi

/-- Two records, the second cut in its first word, and a third one after the
power came back. -/
theorem recovered_cut_run :
    Recovered (boot (Runs.run logStep (boot (Log.off fun _ => erasedWord))
      [.append (.execute ⟨1#32, 2#32⟩), .device .work, .device .error, .device .work, .device .work,
        .device .work, .device .success, .go, .append (.header ⟨1#32, 2#32, 0#32, 64#32⟩),
        .device .work, .power, .append (.config .zero), .device .work])) :=
  recovered (fun _ _ _ => rfl) _ ((run_advances_le _ _).trans_lt (by
    rw [boot_advances]
    decide))

end App

end AntTracer
