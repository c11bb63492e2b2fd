import AntTracer.Loader.Image

/-!
# What the search test lets through

The search test is meant to accept an update of which every chunk and the
execute record are in the store. It does not always. The map of the chunks
covers addresses below `0x40000`, and a header whose range ends there or
beyond is not entered into it, so that no chunk is asked for
(`chunksPresent_iff`). And a newer header resets the sequence of the execute
record but not its version, so that the version of an earlier update stands in
for it (`ownExecute_iff`).
-/

namespace AntTracer

namespace Loader

variable {m : Comparator} {u : UICR} {flash : ℕ → Byte} {rs pre post : List StoreRecord}
variable {h : SuInfo}

/-- Every chunk of the header's range is among the records. -/
def ChunksPresent (rs : List StoreRecord) (h : SuInfo) : Prop :=
  ∀ a, a % oqSuChunk = 0 → h.start.toNat ≤ a → a < h.stop.toNat →
    ∃ d, .chunk d ∈ rs ∧ d.sequence = h.sequence ∧ d.address.toNat = a

/-- The header's own execute record is among the records. -/
def OwnExecute (rs : List StoreRecord) (h : SuInfo) : Prop :=
  ∃ x, .exec x ∈ rs ∧ x.sequence = h.sequence ∧ x.version = h.version

/-- No sane header has a sequence number. -/
def NoHeader (rs : List StoreRecord) : Prop :=
  ∀ i, .info i ∈ rs → ¬ Insane i → i.sequence = 0#32

theorem Selects.not_noHeader (hs : Selects pre h post) : ¬ NoHeader (pre ++ .info h :: post) := by
  intro hno
  have := hno h (by simp) hs.sane
  exact (BitVec.pos_iff_ne_zero _).1 hs.pos this

/-- Only one header is selected. -/
theorem pastSearch_of_selects (hrs : storeRecords u flash = pre ++ .info h :: post)
    (hs : Selects pre h post) : PastSearch m u flash ↔
      ¬ u.Bad ∧ Complete h post ∧ versionInForce 0#32 0#32 (storeRecords u flash) = h.version := by
  obtain ⟨b, hb⟩ := searchPass_eq m u flash
  have hw := storeRecords_wellFormed u flash
  unfold PastSearch
  rw [hb]
  change _ ∧ ¬ (searchPass (runRecords m (storeRecords u flash)) (State.boot flash)).SearchFails ↔ _
  rw [hrs] at hw ⊢
  obtain ⟨h₁, h₂, h₃⟩ := searchPass_selects (m := m) flash hs hw
  simp only [State.SearchFails, h₁, h₂, h₃, not_or, not_not]
  refine and_congr_right fun _ => ?_
  constructor
  · rintro ⟨-, hc, hv⟩
    exact ⟨hc, hv.symm⟩
  · rintro ⟨hc, hv⟩
    exact ⟨(BitVec.pos_iff_ne_zero _).1 hs.pos, hc, hv.symm⟩

theorem not_pastSearch_of_noHeader (hno : NoHeader (storeRecords u flash)) :
    ¬ PastSearch m u flash := by
  rw [pastSearch_iff]
  rintro ⟨-, pre, h, post, hrs, ha⟩
  rw [hrs] at hno
  exact ha.selects.not_noHeader hno

/-! ## The chunks -/

/-- A chunk after the header that is accepted is one of its chunks. -/
theorem Complete.chunksPresent (hc : Complete h post) (hw : ∀ r ∈ post, r.WellFormed)
    (hstop : h.stop.toNat < mapEnd) (hsub : ∀ r ∈ post, r ∈ rs) : ChunksPresent rs h := by
  intro a ha h₁ h₂
  obtain ⟨d, hd, hf, heq⟩ := hc hstop a ha h₁ h₂
  exact ⟨d, hsub _ hd, ((not_foreign_iff (hw _ hd).2.1).1 hf).1, heq⟩

/-- **An update is only applied when every chunk is present**, exactly when
the newest header ends below what the map covers, or the search test fails
for another reason, or the chunks happen to be there. -/
theorem chunksPresent_iff :
    (PastSearch m u flash → ChunksPresent (storeRecords u flash) (selected m u flash)) ↔
      u.Bad ∨ NoHeader (storeRecords u flash) ∨
        ∃ pre h post, storeRecords u flash = pre ++ .info h :: post ∧ Selects pre h post ∧
          (h.stop.toNat < mapEnd ∨
            versionInForce 0#32 0#32 (storeRecords u flash) ≠ h.version ∨
            ChunksPresent (storeRecords u flash) h) := by
  constructor
  · intro himp
    by_cases hbad : u.Bad
    · exact Or.inl hbad
    rcases exists_selects (storeRecords u flash) with hno | ⟨pre, h, post, hrs, hs⟩
    · exact Or.inr (Or.inl hno)
    refine Or.inr (Or.inr ⟨pre, h, post, hrs, hs, ?_⟩)
    by_cases hstop : h.stop.toNat < mapEnd
    · exact Or.inl hstop
    by_cases hv : versionInForce 0#32 0#32 (storeRecords u flash) = h.version
    · -- nothing is asked for, so the test is passed
      have := himp ((pastSearch_of_selects hrs hs).2 ⟨hbad, fun h' => absurd h' hstop, hv⟩)
      rw [selected_eq hrs hs] at this
      exact Or.inr (Or.inr this)
    · exact Or.inr (Or.inl hv)
  · rintro (hbad | hno | ⟨pre, h, post, hrs, hs, hc⟩) hpast
    · exact absurd hbad hpast.1
    · exact absurd hpast (not_pastSearch_of_noHeader hno)
    · obtain ⟨-, hcomplete, hv⟩ := (pastSearch_of_selects hrs hs).1 hpast
      rw [selected_eq hrs hs]
      rcases hc with hstop | hne | hall
      · have hw := storeRecords_wellFormed u flash
        rw [hrs] at hw ⊢
        exact hcomplete.chunksPresent (fun r hr => hw r (by simp [hr])) hstop
          fun r hr => by simp [hr]
      · exact absurd hv hne
      · exact hall

/-- A header for `0x20000 .. 0x40000`, and its execute record. -/
def headerOnly : List StoreRecord :=
  [.info ⟨1#32, 5#32, 0x20000#32, 0x40000#32⟩, .exec ⟨1#32, 5#32⟩]

/-- A store that holds them and no chunk. -/
def headerOnlyFlash : ℕ → Byte := storeOf 0x40000 62 0 headerOnly fun _ => 0xff#8

theorem storeRecords_headerOnly : storeRecords uicr₂ headerOnlyFlash = headerOnly :=
  storeRecords_storeOf uicr₂_paged (by decide) (by decide) (by decide) (by
    intro r hr
    simp only [headerOnly, List.mem_cons, List.not_mem_nil, or_false] at hr
    rcases hr with rfl | rfl
    · exact ⟨by decide, by decide, by decide, by decide, by decide⟩
    · exact ⟨by decide⟩)

/-- **A header alone is applied**: the range ends where the map does. -/
theorem not_chunksPresent :
    ¬ (PastSearch (loaderMemcmp fun _ => []) uicr₂ headerOnlyFlash →
      ChunksPresent (storeRecords uicr₂ headerOnlyFlash)
        (selected (loaderMemcmp fun _ => []) uicr₂ headerOnlyFlash)) := by
  intro himp
  have hs : Selects [] ⟨1#32, 5#32, 0x20000#32, 0x40000#32⟩ [.exec ⟨1#32, 5#32⟩] :=
    ⟨by decide, by decide, by simp, by simp⟩
  have hpresent := himp ((pastSearch_of_selects storeRecords_headerOnly hs).2
    ⟨by decide, fun h => absurd h (by decide), by rw [storeRecords_headerOnly]; decide⟩)
  rw [selected_eq storeRecords_headerOnly hs, storeRecords_headerOnly] at hpresent
  obtain ⟨d, hd, -⟩ := hpresent 0x20000 (by decide) (by decide) (by decide)
  simp [headerOnly] at hd

/-! ## The execute record -/

theorem versionInForce_split (hs : Selects pre h post) :
    versionInForce 0#32 0#32 (pre ++ .info h :: post) =
      versionInForce h.sequence (versionInForce 0#32 0#32 pre) post := by
  have hlt := newestSequence_lt pre hs.pos hs.before
  rw [versionInForce_append, versionInForce, if_pos ⟨hs.sane, hlt⟩]

/-- **An update is only applied with its own execute record**, exactly when
one with its sequence follows the header, or one is before it, or the version
in force before the header is another one, or the search test fails for
another reason. -/
theorem ownExecute_iff :
    (PastSearch m u flash → OwnExecute (storeRecords u flash) (selected m u flash)) ↔
      u.Bad ∨ NoHeader (storeRecords u flash) ∨
        ∃ pre h post, storeRecords u flash = pre ++ .info h :: post ∧ Selects pre h post ∧
          ((∃ x, .exec x ∈ post ∧ x.sequence = h.sequence) ∨ OwnExecute pre h ∨
            versionInForce 0#32 0#32 pre ≠ h.version ∨ ¬ Complete h post) := by
  constructor
  · intro himp
    by_cases hbad : u.Bad
    · exact Or.inl hbad
    rcases exists_selects (storeRecords u flash) with hno | ⟨pre, h, post, hrs, hs⟩
    · exact Or.inr (Or.inl hno)
    refine Or.inr (Or.inr ⟨pre, h, post, hrs, hs, ?_⟩)
    by_contra hc
    simp only [not_or, not_not] at hc
    obtain ⟨hnone, hown, hv, hcomplete⟩ := hc
    -- the version of the earlier update passes for the header's own
    have hforce : versionInForce 0#32 0#32 (storeRecords u flash) = h.version := by
      rw [hrs, versionInForce_split hs]
      rcases versionInForce_after (v := versionInForce 0#32 0#32 pre) post hs.after with
        ⟨x, hx, hseq, -⟩ | ⟨-, heq⟩
      · exact absurd ⟨x, hx, hseq⟩ hnone
      · rw [heq, hv]
    obtain ⟨x, hx, hseq, hver⟩ := himp ((pastSearch_of_selects hrs hs).2 ⟨hbad, hcomplete, hforce⟩)
    rw [selected_eq hrs hs] at hseq hver
    rw [hrs] at hx
    rcases List.mem_append.1 hx with hx | hx
    · exact hown ⟨x, hx, hseq, hver⟩
    · exact hnone ⟨x, by simpa using hx, hseq⟩
  · rintro (hbad | hno | ⟨pre, h, post, hrs, hs, hc⟩) hpast
    · exact absurd hbad hpast.1
    · exact absurd hpast (not_pastSearch_of_noHeader hno)
    · obtain ⟨-, hcomplete, hv⟩ := (pastSearch_of_selects hrs hs).1 hpast
      rw [selected_eq hrs hs]
      rw [hrs, versionInForce_split hs] at hv
      rw [hrs]
      rcases versionInForce_after (v := versionInForce 0#32 0#32 pre) post hs.after with
        ⟨x, hx, hseq, heq⟩ | ⟨hnone, heq⟩
      · exact ⟨x, by simp [hx], hseq, by rw [← heq, hv]⟩
      · rcases hc with ⟨x, hx, hseq⟩ | ⟨x, hx, hseq, hver⟩ | hne | hno
        · exact absurd hseq (hnone x hx)
        · exact ⟨x, by simp [hx], hseq, hver⟩
        · exact absurd (heq ▸ hv) hne
        · exact absurd hcomplete hno

/-- An update of one page that has been executed, and the header and the
chunks of the next one, of the same version. -/
def repeated : List StoreRecord :=
  [.info ⟨1#32, 5#32, 0x1000#32, 0x2000#32⟩, .exec ⟨1#32, 5#32⟩,
    .info ⟨2#32, 5#32, 0x1000#32, 0x2000#32⟩] ++
    zeroChunks 2#32

/-- A store that holds them. -/
def repeatedFlash : ℕ → Byte := storeOf 0x20000 94 0 repeated fun _ => 0xff#8

theorem storeRecords_repeated : storeRecords uicr₀ repeatedFlash = repeated := by
  refine storeRecords_storeOf uicr₀_paged (by simp [repeated]) (by simp [repeated, chunksFrom])
    (by decide) fun r hr => ?_
  rcases List.mem_append.1 hr with hr | hr
  · simp only [List.mem_cons, List.not_mem_nil, or_false] at hr
    rcases hr with rfl | rfl | rfl
    · exact ⟨by decide, by decide, by decide, by decide, by decide⟩
    · exact ⟨by decide⟩
    · exact ⟨by decide, by decide, by decide, by decide, by decide⟩
  · exact zeroChunks_fits (by decide) r hr

/-- **An update is applied on another one's execute record**: sequence 2 has
none. -/
theorem not_ownExecute :
    ¬ (PastSearch (loaderMemcmp fun _ => []) uicr₀ repeatedFlash →
      OwnExecute (storeRecords uicr₀ repeatedFlash)
        (selected (loaderMemcmp fun _ => []) uicr₀ repeatedFlash)) := by
  intro himp
  have hs : Selects [.info ⟨1#32, 5#32, 0x1000#32, 0x2000#32⟩, .exec ⟨1#32, 5#32⟩]
      ⟨2#32, 5#32, 0x1000#32, 0x2000#32⟩ (zeroChunks 2#32) := by
    refine ⟨by decide, by decide, fun i hi _ => ?_, fun i hi => ?_⟩
    · simp only [List.mem_cons, StoreRecord.info.injEq, reduceCtorEq, List.not_mem_nil,
        or_false] at hi
      subst hi
      decide
    · simp [chunksFrom] at hi
  have hrs : storeRecords uicr₀ repeatedFlash =
      [.info ⟨1#32, 5#32, 0x1000#32, 0x2000#32⟩, .exec ⟨1#32, 5#32⟩] ++
        .info ⟨2#32, 5#32, 0x1000#32, 0x2000#32⟩ :: zeroChunks 2#32 := storeRecords_repeated
  have hforce : versionInForce 0#32 0#32 (storeRecords uicr₀ repeatedFlash) = 5#32 := by
    rw [hrs, versionInForce_split hs]
    rcases versionInForce_after (v := versionInForce 0#32 0#32
      [.info ⟨1#32, 5#32, 0x1000#32, 0x2000#32⟩, .exec ⟨1#32, 5#32⟩]) _ hs.after with
      ⟨x, hx, -⟩ | ⟨-, heq⟩
    · simp [chunksFrom] at hx
    · rw [heq]
      decide
  obtain ⟨x, hx, hseq, -⟩ := himp ((pastSearch_of_selects hrs hs).2 ⟨by decide,
    complete_chunksFrom _ _ _ (by decide) (by decide) (by decide) (by decide) fun _ h => h, hforce⟩)
  rw [selected_eq hrs hs] at hseq
  rw [hrs] at hx
  simp only [chunksFrom, List.cons_append, List.nil_append, List.mem_cons, reduceCtorEq,
    StoreRecord.exec.injEq, List.mem_map, and_false, exists_false, or_false, false_or] at hx
  subst hx
  exact absurd hseq (by decide)

/-! ## Complete updates -/

/-- Between the records `pre` and `post` stands the header of a complete
update that is newer than any other. -/
structure NewestWhole (pre : List StoreRecord) (h : SuInfo) (post : List StoreRecord) : Prop where
  sane : ¬ Insane h
  sequence_ne : h.sequence ≠ 0#32
  /-- any other sane header is older -/
  newest : ∀ i, .info i ∈ pre ++ post → ¬ Insane i → i.sequence < h.sequence
  /-- every chunk is there, after the header -/
  chunks : ChunksPresent post h
  /-- so is an execute record, and the last one has the header's version -/
  executed : ∃ mid x fin, post = mid ++ .exec x :: fin ∧ x.sequence = h.sequence ∧
    x.version = h.version ∧ ∀ y, .exec y ∈ fin → y.sequence ≠ h.sequence

theorem NewestWhole.selects (hw : NewestWhole pre h post) : Selects pre h post :=
  ⟨hw.sane, (BitVec.pos_iff_ne_zero _).2 hw.sequence_ne,
    fun i hi => hw.newest i (List.mem_append_left _ hi),
    fun i hi hsane => BitVec.le_of_lt (hw.newest i (List.mem_append_right _ hi) hsane)⟩

/-- The last execute record of the header's sequence puts its version in
force. -/
theorem NewestWhole.version (hw : NewestWhole pre h post) :
    versionInForce 0#32 0#32 (pre ++ .info h :: post) = h.version := by
  have hafter := hw.selects.after
  obtain ⟨mid, x, fin, hpost, hseq, hver, hlast⟩ := hw.executed
  rw [versionInForce_split hw.selects, hpost, versionInForce_append,
    newestSequence_of_none mid fun i hi => hafter i (by simp [hpost, hi]), versionInForce,
    if_pos hseq]
  rcases versionInForce_after (q := h.sequence) (v := x.version) fin
    (fun i hi => hafter i (by simp [hpost, hi])) with ⟨y, hy, hyseq, -⟩ | ⟨-, heq⟩
  · exact absurd hyseq (hlast y hy)
  · rw [heq, hver]

/-- Chunks of the range are not foreign. -/
theorem ChunksPresent.complete (hc : ChunksPresent post h)
    (hwf : ∀ r ∈ .info h :: post, r.WellFormed) : Complete h post := by
  intro _ a ha h₁ h₂
  obtain ⟨d, hd, hseq, haddr⟩ := hc a ha h₁ h₂
  have hd' := (hwf _ (List.mem_cons_of_mem _ hd)).2.1
  have hmod : h.start.toNat % 64 = 0 ∧ h.stop.toNat % 64 = 0 := hwf _ (List.mem_cons_self ..)
  refine ⟨d, hd, (not_foreign_iff hd').2 ⟨hseq, by omega, ?_⟩, haddr⟩
  simp only [oqSuChunk] at *
  omega

/-- **A complete update is never refused.** Whatever other records are mixed
in, and in whatever order, the search pass selects its header and `Main` gets
past the search test, if it gets to it. -/
theorem never_refused (hrs : storeRecords u flash = pre ++ .info h :: post)
    (hw : NewestWhole pre h post) :
    selected m u flash = h ∧ (PastSearch m u flash ↔ ¬ u.Bad) := by
  have hwf := storeRecords_wellFormed u flash
  rw [hrs] at hwf
  have hcomplete := hw.chunks.complete fun r hr => hwf r (List.mem_append_right _ hr)
  refine ⟨selected_eq hrs hw.selects, ?_⟩
  rw [pastSearch_of_selects hrs hw.selects, hrs]
  exact ⟨And.left, fun hbad => ⟨hbad, hcomplete, hw.version⟩⟩

/-- The update of one page. -/
theorem never_refused_one :
    selected (loaderMemcmp fun _ => []) uicr₀ (oneUpdateFlash fun _ => 0xff#8) =
        ⟨1#32, 5#32, 0x1000#32, 0x2000#32⟩ ∧
      (PastSearch (loaderMemcmp fun _ => []) uicr₀ (oneUpdateFlash fun _ => 0xff#8) ↔
        ¬ uicr₀.Bad) := by
  refine @never_refused _ _ _ [] _ _ (storeRecords_oneUpdate _) ⟨by decide, by decide, ?_, ?_, ?_⟩
  · simp [chunksFrom]
  · intro a ha h₁ h₂
    change 0x1000 ≤ a at h₁
    change a < 0x2000 at h₂
    have heq : (BitVec.ofNat 32 (0x1000 + oqSuChunk * ((a - 0x1000) / oqSuChunk))).toNat = a := by
      simp only [oqSuChunk] at *
      rw [BitVec.toNat_ofNat, Nat.mod_eq_of_lt (by omega)]
      omega
    refine ⟨_, List.mem_append_left _
      (mem_chunksFrom.2 ⟨(a - 0x1000) / oqSuChunk, ?_, rfl⟩), rfl, heq⟩
    simp only [oqSuChunk] at *
    omega
  · exact ⟨_, _, [], rfl, rfl, rfl, by simp⟩

end Loader

end AntTracer
