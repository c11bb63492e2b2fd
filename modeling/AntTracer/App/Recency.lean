import AntTracer.App.Capacity

/-!
# The last records are kept

The page that is erased next is always the one begun longest ago. So what is
written from some moment on is kept until the pen has been round the store:
as long as fewer than 60 pages have been begun since, everything completed
since is still there, whatever was in the store before (`recent_kept`).
-/

namespace AntTracer

namespace App

/-! ## Where a record lies -/

/-- With `n` pages begun so far, the record lies in one of them, and at most in
the next one too; and it was begun when there were `q` of them or more. -/
def Seated (q n : ℕ) (r : Appended) : Prop :=
  ∀ a, r.start = some a → r.words.length ≤ pageWords ∧
    ∃ u, q ≤ u + 2 ∧ u < n ∧ a / pageWords = 64 + u % storePages ∧
      (a + r.words.length ≤ (a / pageWords + 1) * pageWords ∨ u + 1 < n)

section Seated

variable {q n n' : ℕ} {r : Appended}

theorem Seated.mono (h : Seated q n r) (hle : n ≤ n') : Seated q n' r := by
  intro a ha
  obtain ⟨hshort, u, h₁, h₂, h₃, h₄⟩ := h a ha
  exact ⟨hshort, u, h₁, h₂.trans_le hle, h₃, h₄.imp id fun h => h.trans_le hle⟩

/-- **The next page** is none of a record's, until the pen has been round. -/
theorem Seated.not_touches (h : Seated q n r) (hnear : n + 2 < q + storePages) :
    ¬ r.Touches (64 + n % storePages) := by
  rintro ⟨a, ha, hfirst, hlast⟩
  obtain ⟨hshort, u, h₁, h₂, h₃, h₄⟩ := h a ha
  have hdiv := Nat.div_add_mod a pageWords
  have hmod := Nat.mod_lt a (show 0 < pageWords by decide)
  generalize hp : a / pageWords = p at *
  have hnext : n % storePages = u % storePages ∨
      (n % storePages = u % storePages + 1 ∧ u + 1 < n) := by
    simp only [pageWords] at *
    omega
  simp only [storePages] at *
  omega

end Seated

/-! ## What is written now -/

section Log

variable {l l' : Log} {t : LogTape} {spare W : List Word} {flash : ℕ → Word} {rs : List Appended}
  {r : Appended} {q k n ptr : ℕ}

theorem Placed.seated (hp : Placed t spare r.words W ptr n) (h : Disk t spare flash)
    (hrec : IsRecord r.words) (hstart : r.start = some ptr) (hq : q ≤ n) : Seated q n r := by
  intro a ha
  obtain rfl : ptr = a := Option.some.inj (hstart.symm.trans ha)
  have hshort := hrec.short
  have hpos := hrec.length_pos
  refine ⟨by simp only [bufferSize, pageWords] at *; omega, ?_⟩
  cases hp with
  | inPage hfit =>
    obtain ⟨hlt, hpage, -, -⟩ := h.page_tail (by omega)
    obtain ⟨-, h₁, h₂, -⟩ := h.tail_eq (by omega)
    refine ⟨t.hi - 1, by omega, by omega, hpage, Or.inl ?_⟩
    rw [hpage, h₁]
    simp only [pageAt, storeStart, pageWords] at *
    omega
  | turning hmore hc =>
    have hpage := h.page_newStart
    by_cases hfirst : 0 < firstPart t
    · rw [if_pos hfirst] at hpage
      obtain ⟨hlt, -⟩ := h.firstPart_pos hfirst
      exact ⟨t.hi - 1, by omega, by omega, hpage, Or.inr (by omega)⟩
    · rw [if_neg hfirst] at hpage
      have hadd := h.newStart_add
      refine ⟨t.hi, by omega, by omega, hpage, Or.inl ?_⟩
      rw [hpage]
      simp only [pageAt, storeStart, bufferSize, pageWords] at *
      omega

/-- The record `wrGo` is at lies in the pages begun last. -/
theorem Working.seated (h : Working l) (hq : q ≤ l.sequence.toNat)
    (hadv : l.advances < 2 ^ 26 - 1) :
    ∀ r ∈ l.records, r.status = .writing → Seated q l.sequence.toNat r := by
  intro r hr hstatus
  cases h with
  | @erasing t spare rs r' b =>
    rw [b.records, List.mem_append, List.mem_singleton] at hr
    obtain rfl := hr.resolve_left fun hr => b.settled r hr hstatus
    intro a ha
    rw [b.start] at ha
    cases ha
  | @writing t spare flash rs r' W n k w =>
    rw [w.records, List.mem_append, List.mem_singleton] at hr
    obtain rfl := hr.resolve_left fun hr => w.settled r hr hstatus
    have hseq : l.sequence.toNat = n := by
      have := w.advances
      rw [w.sequence, BitVec.toNat_ofNat, Nat.mod_eq_of_lt (by omega)]
    rw [hseq] at hq ⊢
    exact w.placed.seated w.disk w.record w.start hq

/-! ## The number of the newest page -/

/-- A call of `wrGo` begins at most one page. -/
def Counts (l l' : Log) : Prop := l'.sequence = l.sequence ∨ l'.sequence = l.sequence + 1#32

theorem wrWrite_counts (ptr cnt : ℕ) (h : l'.sequence = l.sequence) :
    Counts l (wrWrite ptr cnt l').1 := by
  rw [Counts, ← h, wrWrite]
  split
  · exact Or.inl rfl
  · by_cases hneed : l'.needSeq = true
    · simp only [hneed, if_true]
      change (wrSeq l'.sequence l'.buf).2 = _ ∨ (wrSeq l'.sequence l'.buf).2 = _
      unfold wrSeq
      split
      · exact Or.inr rfl
      · exact Or.inl rfl
    · simp only [hneed]
      exact Or.inl rfl

theorem wrErase_counts (ptr pe remain cnt : ℕ) (h : l'.sequence = l.sequence) :
    Counts l (wrErase ptr pe remain cnt l').1 := by
  unfold wrErase
  dsimp only
  generalize (if pe ≥ storeEnd then storeStart else pe) = next
  split_ifs
  · exact Or.inl h
  · exact wrWrite_counts _ _ h
  · exact wrWrite_counts _ _ h
  · exact wrWrite_counts _ _ h

theorem wrGo_counts (h : l'.sequence = l.sequence) : Counts l (wrGo l').1 := by
  unfold wrGo
  cases l'.wrState with
  | idle =>
    dsimp only
    split
    · exact Or.inl h
    · exact wrErase_counts _ _ _ _ h
  | erase1 => exact wrErase_counts _ _ _ _ h
  | erase2 => exact wrErase_counts _ _ _ _ h
  | erase3 => exact Or.inl h
  | write1 => exact wrWrite_counts _ _ h
  | write2 => exact wrWrite_counts _ _ h
  | write3 => exact Or.inl h

theorem Counts.le (h : Counts l l') (hlt : l.sequence.toNat < 2 ^ 26) :
    l.sequence.toNat ≤ l'.sequence.toNat := by
  rcases h with h | h
  · exact (congrArg BitVec.toNat h).ge
  · rw [h, BitVec.toNat_add, Nat.mod_eq_of_lt]
    · exact Nat.le_add_right _ _
    · simp only [BitVec.toNat_ofNat]
      omega

theorem sequence_le {n : ℕ} (h : l.sequence = BitVec.ofNat 32 n) (hadv : n ≤ l.advances) :
    l.sequence.toNat ≤ l.advances := by
  rw [h, BitVec.toNat_ofNat]
  exact (Nat.mod_le _ _).trans hadv

theorem Idle.sequence_le (h : Idle l t spare) : l.sequence.toNat ≤ l.advances :=
  App.sequence_le h.sequence h.advances

theorem Working.sequence_le (h : Working l) : l.sequence.toNat ≤ l.advances := by
  cases h with
  | erasing b => exact App.sequence_le b.sequence b.advances
  | writing w => exact App.sequence_le w.sequence w.advances

/-! ## What is kept -/

/-- The records from `k` on were begun when there were `q` pages or more; and
they are kept until the pen comes back. -/
structure Recent (q k : ℕ) (l : Log) : Prop where
  le : q ≤ l.sequence.toNat
  length : k ≤ l.records.length
  seated : ∀ r ∈ l.records.drop k, r.status = .completed → Seated q l.sequence.toNat r
  kept : l.sequence.toNat + 2 < q + storePages → ∀ r ∈ l.records.drop k,
    r.status = .completed ∨ r.status = .writing → r.erased = false

/-- From now on. -/
theorem recent_here (l : Log) : Recent l.sequence.toNat l.records.length l := by
  have hnone : l.records.drop l.records.length = [] := List.drop_length
  refine ⟨le_rfl, le_rfl, fun r hr => ?_, fun _ r hr => ?_⟩ <;>
    exact absurd (hnone ▸ hr) List.not_mem_nil

theorem Recent.congr (h : Recent q k l) (hseq : l'.sequence = l.sequence)
    (hrec : l'.records = l.records) : Recent q k l' := by
  refine ⟨?_, ?_, ?_, ?_⟩ <;> simp only [hseq, hrec]
  · exact h.le
  · exact h.length
  · exact h.seated
  · exact h.kept

/-- **A step of `wrGo`**: the record it was at may have been completed. -/
theorem Recent.recorded (h : Recent q k l) {res : Log × Bool} (hr : Recorded l.records res)
    (hle : l.sequence.toNat ≤ res.1.sequence.toNat)
    (hnew : ∀ r ∈ l.records, r.status = .writing → Seated q l.sequence.toNat r) :
    Recent q k res.1 := by
  -- what becomes of a record
  have hmap : ∀ r' ∈ res.1.records.drop k, ∃ r ∈ l.records.drop k, r'.erased = r.erased ∧
      (r'.status = .completed → (r.status = .completed ∨ r.status = .writing) ∧
        r'.words = r.words ∧ r'.start = r.start) ∧
      (r'.status = .writing → r.status = .writing) := by
    intro r' hr'
    rcases hr with ⟨-, hrec | ⟨a, hrec⟩⟩ | ⟨-, hrec⟩ <;> rw [hrec] at hr'
    · exact ⟨r', hr', rfl, fun hs => ⟨Or.inl hs, rfl, rfl⟩, id⟩
    · rw [noteStart, ← List.map_drop] at hr'
      obtain ⟨r, hr, rfl⟩ := List.mem_map.1 hr'
      refine ⟨r, hr, ?_⟩
      by_cases hs : r.status = .writing
      · rw [if_pos hs]
        refine ⟨rfl, fun hc => ?_, fun _ => hs⟩
        rw [hs] at hc
        cases hc
      · rw [if_neg hs]
        exact ⟨rfl, fun hc => ⟨Or.inl hc, rfl, rfl⟩, id⟩
    · rw [noteStatus, ← List.map_drop] at hr'
      obtain ⟨r, hr, rfl⟩ := List.mem_map.1 hr'
      refine ⟨r, hr, ?_⟩
      by_cases hs : r.status = .writing
      · rw [if_pos hs]
        exact ⟨rfl, fun _ => ⟨Or.inr hs, rfl, rfl⟩, Status.noConfusion⟩
      · rw [if_neg hs]
        exact ⟨rfl, fun hc => ⟨Or.inl hc, rfl, rfl⟩, id⟩
  have hlength : l.records.length = res.1.records.length := by
    rcases hr with ⟨-, hrec | ⟨a, hrec⟩⟩ | ⟨-, hrec⟩ <;> rw [hrec]
    · exact (List.length_map _).symm
    · exact (List.length_map _).symm
  refine ⟨h.le.trans hle, hlength ▸ h.length, fun r' hr' hs => ?_, fun hnear r' hr' hs => ?_⟩
  · obtain ⟨r, hr, -, hdone, -⟩ := hmap r' hr'
    obtain ⟨hlive, hw, hst⟩ := hdone hs
    have hseat : Seated q l.sequence.toNat r := hlive.elim (h.seated r hr)
      (hnew r (List.mem_of_mem_drop hr))
    intro a ha
    rw [hw]
    exact hseat.mono hle a (hst ▸ ha)
  · obtain ⟨r, hr, herased, hdone, hbusy⟩ := hmap r' hr'
    rw [herased]
    exact h.kept (by omega) r hr (hs.elim (fun hs => (hdone hs).1) fun hs => Or.inr (hbusy hs))

/-- **A new record.** -/
theorem Recent.append (h : Recent q k l) (hidle : Idle l t spare) (hadv : l.advances < 2 ^ 26 - 1)
    {ty : Word} {fs : List (ℕ × Word)} (hrec : IsRecord (recordWords ty fs l.buf)) :
    Recent q k (appendRecord ty fs l).1 := by
  have hrecorded := recorded_append hidle.state hrec
  have hlt := hidle.sequence_le
  have hle : l.sequence.toNat ≤ (appendRecord ty fs l).1.sequence.toNat :=
    Counts.le (wrGo_counts rfl) (by omega)
  have hnew : Recent q k { l with
      records := l.records ++ [⟨recordWords ty fs l.buf, none, .writing, false⟩] } := by
    have hdrop :
        (l.records ++ [(⟨recordWords ty fs l.buf, none, .writing, false⟩ : Appended)]).drop k =
          l.records.drop k ++ [⟨recordWords ty fs l.buf, none, .writing, false⟩] :=
      List.drop_append_of_le_length h.length
    refine ⟨h.le, ?_, fun r hr hs => ?_, fun hnear r hr hs => ?_⟩
    · exact h.length.trans (List.length_append ▸ Nat.le_add_right _ _)
    · rw [hdrop, List.mem_append, List.mem_singleton] at hr
      refine h.seated r (hr.resolve_right fun hr => ?_) hs
      rw [hr] at hs
      cases hs
    · rw [hdrop, List.mem_append, List.mem_singleton] at hr
      rcases hr with hr | rfl
      · exact h.kept hnear r hr hs
      · rfl
  refine hnew.recorded hrecorded hle fun r hr hs a ha => ?_
  rcases List.mem_append.1 hr with hr | hr
  · exact absurd hs (hidle.settled r hr)
  · obtain rfl := List.mem_singleton.1 hr
    cases ha

/-- **A further call of `wrGo`.** -/
theorem Recent.go (h : Recent q k l) (hwork : Working l) (hadv : l.advances < 2 ^ 26 - 1) :
    Recent q k (wrGo l).1 := by
  have hlt := hwork.sequence_le
  exact h.recorded (recorded_wrGo (Or.inr hwork.wrState)) (Counts.le (wrGo_counts rfl) (by omega))
    (hwork.seated h.le hadv)

/-- **A page is erased** that no record lies in. -/
theorem Recent.erased (h : Recent q k l) (page : ℕ) (hseq : l'.sequence = l.sequence)
    (hrec : l'.records = noteErased page l.records)
    (hpage : l.sequence.toNat + 2 < q + storePages → ∀ r ∈ l.records.drop k,
      r.status = .completed ∨ r.status = .writing → ¬ r.Touches page) : Recent q k l' := by
  have hmap : ∀ r' ∈ l'.records.drop k, ∃ r ∈ l.records.drop k,
      r' = if r.Touches page then { r with erased := true } else r := by
    intro r' hr'
    rw [hrec, noteErased, ← List.map_drop] at hr'
    obtain ⟨r, hr, rfl⟩ := List.mem_map.1 hr'
    exact ⟨r, hr, rfl⟩
  refine ⟨?_, ?_, ?_, ?_⟩ <;> (try rw [hseq])
  · exact h.le
  · rw [hrec, noteErased, List.length_map]
    exact h.length
  · intro r' hr' hs
    obtain ⟨r, hr, rfl⟩ := hmap r' hr'
    obtain ⟨e₁, e₂, e₃⟩ := noteErased_words page r
    intro a ha
    rw [e₁]
    exact h.seated r hr (e₂ ▸ hs) a (e₃ ▸ ha)
  · intro hnear r' hr' hs
    obtain ⟨r, hr, rfl⟩ := hmap r' hr'
    have hs' := (noteErased_words page r).2.1 ▸ hs
    rw [if_neg (hpage hnear r hr hs')]
    exact h.kept hnear r hr hs'

/-- **An event of the soft device** while `wrGo` is at a record. -/
theorem Recent.device (h : Recent q k l) (hwork : Working l) (hadv : l.advances < 2 ^ 26 - 1)
    (e : SdEvent) : Recent q k (sdEvent l e) := by
  have hseated := hwork.seated h.le hadv
  cases hwork with
  | @erasing t spare rs r b more state needSeq tail op =>
    rcases op with ⟨done, op, -⟩ | ⟨-, hsd, -⟩
    · obtain ⟨now, sd', fc, tries, heq, -⟩ := op.step e
      cases now with
      | false => exact h.congr (by rw [heq]; rfl) (by rw [heq]; rfl)
      | true =>
        have hhi : l.sequence.toNat = t.hi := by
          have := b.advances
          rw [b.sequence, BitVec.toNat_ofNat, Nat.mod_eq_of_lt (by omega)]
        refine h.erased (64 + t.hi % storePages) (by rw [heq]; rfl) (by rw [heq]; rfl)
          fun hnear r hr hs => ?_
        rw [← hhi]
        exact (hs.elim (h.seated r hr) (hseated r (List.mem_of_mem_drop hr))).not_touches hnear
    · rw [sdEvent_of_none hsd]
      exact h
  | @writing t spare flash rs r W n k w op =>
    rcases op with ⟨j, -, op⟩ | ⟨-, hsd, -⟩
    · obtain ⟨flash', sd', fc, tries, written', heq, -⟩ := op.step e
      exact h.congr (by rw [heq]) (by rw [heq])
    · rw [sdEvent_of_none hsd]
      exact h

/-- An event of the soft device while the configuration page is erased. -/
theorem Recent.erasing (h : Recent q k l) (hpage : ErasingPage l) (e : SdEvent) :
    Recent q k (sdEvent l e) := by
  obtain ⟨⟨t, spare, hidle⟩, -, ⟨done, op, -⟩ | ⟨-, hsd, -⟩⟩ := hpage
  · obtain ⟨now, sd', fc, tries, heq, -⟩ := op.step e
    cases now with
    | false => exact h.congr (by rw [heq]; rfl) (by rw [heq]; rfl)
    | true =>
      refine h.erased 126 (by rw [heq]; rfl) (by rw [heq]; rfl) fun _ r hr _ => ?_
      -- no record lies in that page
      rintro ⟨a, ha, -, hpage⟩
      have := hidle.linked.within r (List.mem_of_mem_drop hr) a ha
      simp only [storeStart, storeEnd, pageWords] at *
      omega
  · rw [sdEvent_of_none hsd]
    exact h

/-- An event of the soft device while a slot is written. -/
theorem Recent.slot {i : ℕ} (h : Recent q k l) (hslot : WritingSlot l flash i n) (e : SdEvent) :
    Recent q k (sdEvent l e) := by
  rcases hslot.op with ⟨j, -, op⟩ | ⟨-, hsd, -⟩
  · obtain ⟨flash', sd', fc, tries, written', heq, -⟩ := op.step e
    exact h.congr (by rw [heq]) (by rw [heq])
  · rw [sdEvent_of_none hsd]
    exact h

end Log

/-! ## The store -/

/-- **What holds between the events**, from the start of the window on. -/
structure Window (q k : ℕ) (s : Store) : Prop where
  between : Between s
  state : s.state ≠ .init0
  recent : s.log.advances < 2 ^ 26 - 1 → Recent q k s.log

section Store

variable {s s' : Store} {q k : ℕ}

/-- **A round.** -/
theorem Window.round (h : Window q k s) (hround : Round s s') : Window q k s' := by
  refine ⟨h.between.round hround, hround.ne_init0 h.between.resting h.state, fun hadv => ?_⟩
  have hlt := hround.advances_le.trans_lt hadv
  have hstage := (h.between.sound hlt).stage
  have hrecent := h.recent hlt
  cases hround with
  | init0 hs => exact absurd hs h.state
  | slot | erase | rewrite | saved => exact hrecent.congr rfl rfl
  | full hs =>
    obtain ⟨-, t, spare, hidle⟩ : Free (copyConfig (takeConfig s)).log :=
      (hstage.free hs).copyConfig
    have hcopy : Recent q k (copyConfig (takeConfig s)).log := hrecent.congr rfl rfl
    exact hcopy.append hidle hlt
      ((Rec.config (copyConfig (takeConfig s)).log.staging.config).isRecord _)
  | part p st hs =>
    obtain ⟨-, t, spare, hidle⟩ := hstage.free hs
    exact hrecent.append hidle hlt (p.isRecord _ _)
  | go hs => exact hrecent.go (hstage.writing hs).1 hlt

/-- **Any event.** -/
theorem Window.step (h : Window q k s) (e : StoreEvent) : Window q k (storeStep s e) := by
  by_cases he : e = .loop
  · subst he
    exact @storeSuperLoop_inv (Window q k) (fun _ h => h.between.resting)
      (fun _ _ h hround => h.round hround) _ h
  have hstate : (storeStep s e).state = s.state := by
    cases e with
    | loop => exact absurd rfl he
    | device | tick | change | factory | save | info | chunk | exec => rfl
  refine ⟨h.between.step e, fun hs => h.state (hstate.symm.trans hs), fun hadv => ?_⟩
  have hlt : s.log.advances < 2 ^ 26 - 1 := (storeStep_history s he).1 ▸ hadv
  have hrecent := h.recent hlt
  cases e with
  | loop => exact absurd rfl he
  | device e =>
    change Recent q k (sdEvent s.log e)
    have hfree : s.log.sd = none → Recent q k (sdEvent s.log e) := fun hsd =>
      (sdEvent_of_none hsd e).symm ▸ hrecent
    have hstage := (h.between.sound hlt).stage
    rcases hstage.states with hs | hs | hs | hs | hs | hs
    · exact absurd hs h.state
    · exact hfree (hstage.free hs).1
    · exact hrecent.device (hstage.writing hs).1 hlt e
    · exact hfree (hstage.copied hs).1.1
    · exact hrecent.erasing (hstage.erasing hs).1 e
    · obtain ⟨⟨flash, i, k, hslot⟩, -⟩ := hstage.slot hs
      exact hrecent.slot hslot e
  | tick | change | factory | save | info | chunk | exec => exact hrecent.congr rfl rfl

theorem window_here (h : Between s) (hstate : s.state ≠ .init0) :
    Window s.log.sequence.toNat s.log.records.length s :=
  ⟨h, hstate, fun _ => recent_here s.log⟩

/-- **What was written last is kept.** Whatever has been stored before, and
however often the power was lost: as long as fewer than 60 pages have been
begun since a moment of the present run, no record completed since has been
erased. -/
theorem recent_kept {flash : ℕ → Word} (h : Erased flash) (es₀ : List SystemEvent)
    (es : List StoreEvent)
    (hstate : (Runs.run systemStep (Store.first flash) es₀).state ≠ .init0)
    (hadv : (Runs.run storeStep (Runs.run systemStep (Store.first flash) es₀) es).log.advances <
      2 ^ 26 - 1)
    (hnear : (Runs.run storeStep (Runs.run systemStep (Store.first flash) es₀)
        es).log.sequence.toNat <
      (Runs.run systemStep (Store.first flash) es₀).log.sequence.toNat + 60) :
    ∀ r ∈ (Runs.run storeStep (Runs.run systemStep (Store.first flash) es₀) es).log.records.drop
        (Runs.run systemStep (Store.first flash) es₀).log.records.length,
      r.status = .completed → r.erased = false := by
  have hwindow := Runs.inv_run
    (P := Window (Runs.run systemStep (Store.first flash) es₀).log.sequence.toNat
      (Runs.run systemStep (Store.first flash) es₀).log.records.length)
    (fun _ e hs => Window.step hs e) (window_here (sound_run h es₀) hstate) es
  exact fun r hr hs => (hwindow.recent hadv).kept (by simp only [storePages] at *; omega) r hr
    (Or.inl hs)

set_option maxRecDepth 100000 in
theorem recent_kept_header :
    (Runs.run systemStep (Store.first fun _ => erasedWord) [.event .loop]).state ≠ .init0 ∧
    ∀ r ∈ (Runs.run storeStep (Runs.run systemStep (Store.first fun _ => erasedWord)
        [.event .loop]) apartRun).log.records.drop
        (Runs.run systemStep (Store.first fun _ => erasedWord) [.event .loop]).log.records.length,
      r.status = .completed → r.erased = false :=
  ⟨by decide,
    recent_kept (fun _ _ _ => rfl) [.event .loop] apartRun (by decide) (by decide) (by decide)⟩

end Store

end App

end AntTracer
