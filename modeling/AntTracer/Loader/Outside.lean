import AntTracer.Loader.Safety

/-!
# What an update changes outside its image

The write pass writes chunks of the image and nothing else, whatever it comes
to read (`writePass_outside`). The erase loop erases whole pages, and the
bounds of an image are those of chunks: a page that sticks out of the image
loses what it had there (`outside_iff`).
-/

namespace AntTracer

namespace Loader

variable {m : Comparator} {u : UICR} {flash : ℕ → Byte} {s : State} {h : SuInfo}

/-- The address is not in the image. -/
def Outside (h : SuInfo) (a : ℕ) : Prop := a < h.start.toNat ∨ h.stop.toNat ≤ a

instance (h : SuInfo) (a : ℕ) : Decidable (Outside h a) := inferInstanceAs (Decidable (_ ∨ _))

/-- The update has a chunk in the page of this address that differs from
flash, and the erase loop gets to the page. -/
def ErasesPage (m : Comparator) (u : UICR) (flash : ℕ → Byte) (h : SuInfo) (a : ℕ) : Prop :=
  a / flashPage * flashPage < u.storeStart.toNat ∧ ∃ i d,
    (accepted h (storeRecords u flash))[i]? = some d ∧ m i d flash ≠ some 0 ∧
      d.address.toNat < mapEnd ∧ d.address.toNat / flashPage = a / flashPage

/-! ## The write pass -/

/-- What every record keeps, the write pass keeps. -/
theorem writePass_inv {P : State → Prop} (hset : ∀ s b, P (s.setBuf b) ↔ P s)
    (hstep : ∀ (r : StoreRecord) s, r.WellFormed → P s → P (callback m r s))
    (hs : P { s with op := .write }) : P (writePass (storeRead m u) s) := by
  refine readFlash_inv (reader_delivers m) hset (fun s l hP => ?_) hs
  unfold deliver
  cases hl : decode l with
  | none => exact hP
  | some r => exact hstep r s (wellFormed_of_decode hl) hP

/-- The state in the write pass: outside the image flash is as it was. -/
structure Inside (h : SuInfo) (before : ℕ → Byte) (s : State) : Prop where
  op : s.op = .write
  suInfo : s.suInfo = h
  outside : ∀ a, Outside h a → s.flash a = before a

/-- **A record is written inside the image**, or not at all. -/
theorem Inside.step {before : ℕ → Byte} (hs : Inside h before s) {r : StoreRecord}
    (hr : r.WellFormed) : Inside h before (callback m r s) := by
  refine ⟨(callback_op r s).trans hs.op,
    (callback_suInfo (by rw [hs.op]; decide) r).trans hs.suInfo, fun a ha => ?_⟩
  rw [← hs.outside a ha]
  rcases callback_flash (m := m) r s with ⟨h₁, -⟩ | ⟨d, rfl, -, hf, h₁, -⟩
  · rw [h₁]
  · have hin := (not_foreign_iff hr.2.1).1 hf
    rw [hs.suInfo] at hin
    rw [h₁]
    refine if_neg fun ⟨h₂, h₃⟩ => ?_
    rw [hr.2.2] at h₃
    simp only [Outside, oqSuChunk] at *
    omega

/-- **The write pass writes inside the image.** -/
theorem writePass_outside (hinfo : s.suInfo = h) {a : ℕ} (ha : Outside h a) :
    (writePass (storeRead m u) s).flash a = s.flash a :=
  (writePass_inv (P := Inside h s.flash) (fun _ _ => ⟨fun ⟨h₁, h₂, h₃⟩ => ⟨h₁, h₂, h₃⟩,
    fun ⟨h₁, h₂, h₃⟩ => ⟨h₁, h₂, h₃⟩⟩) (fun _ _ hr hP => hP.step hr)
    ⟨rfl, hinfo, fun _ _ => rfl⟩).outside a ha

/-! ## The whole update -/

/-- **Outside its image an update leaves flash** as the erase loop does. -/
theorem main_outside {pre post : List StoreRecord} (hbad : ¬ u.Bad)
    (hrs : storeRecords u flash = pre ++ .info h :: post) (ha : Applies pre h post)
    (hgo : (main m u flash).hung = false) {a : ℕ} (ho : Outside h a) :
    (ErasesPage m u flash h a → (main m u flash).flash a = 0xff#8) ∧
      (¬ ErasesPage m u flash h a → (main m u flash).flash a = flash a) := by
  obtain ⟨b, hmain⟩ := main_past (m := m) hbad hrs ha
  have hS := UICR.start_le hbad
  have hw := storeRecords_wellFormed u flash
  obtain ⟨hflash, -, -, hdone⟩ := compareEnd_spec (m := m) flash hrs ha.selects hw
  by_cases hhung : (compareEnd m (storeRecords u flash) flash h).hung = true
  · rw [hmain, if_pos hhung] at hgo
    exact absurd (hgo.symm.trans hhung) (by decide)
  obtain ⟨hcmp, -, hpages, hclear⟩ := hdone (by simpa using hhung)
  rw [if_neg hhung] at hmain
  by_cases hc : mapIsClearAll (compareEnd m (storeRecords u flash) flash h).pages = true
  · -- no page is erased
    rw [if_pos hc] at hmain
    have hsame := hclear.1 hc
    rw [hmain]
    refine ⟨fun ⟨_, i, d, hi, hne, hlt, _⟩ => absurd (hsame i d hi hlt) hne, fun _ => ?_⟩
    exact congrFun hflash a
  rw [if_neg hc] at hmain
  obtain ⟨herase, -, hinfo, -⟩ :=
    erasePages_spec (S := u.storeStart.toNat) flashPages flashPage
      ((compareEnd m (storeRecords u flash) flash h).setBuf b) (by decide)
      (by simp only [flashPages, flashPage]; omega)
  -- the erase loop erases the pages of the chunks that differ
  have hiff : Erased u.storeStart.toNat flashPage
      (compareEnd m (storeRecords u flash) flash h).pages a ↔ ErasesPage m u flash h a := by
    obtain ⟨-, hstop, -⟩ := pages_range hcmp.shape
    constructor
    · rintro ⟨h₁, h₂, h₃⟩
      by_cases hp : a / flashPage < 64
      · obtain ⟨i, d, hi, hne, hpage⟩ := (hpages _ hp).1 h₃
        exact ⟨h₂, i, d, hi, hne, by simp only [mapEnd, flashPage] at *; omega, hpage⟩
      · rw [mapIsSet_of_ge (by simp only [mapEnd, flashPage] at *; omega)] at h₃
        cases h₃
    · rintro ⟨h₂, i, d, hi, hne, hlt, hpage⟩
      have hlow := (accepted_bounds ha.selects.sane hw (List.mem_of_getElem? hi)).1
      refine ⟨by simp only [mapEnd, flashPage] at *; omega, h₂, ?_⟩
      exact (hpages _ (by simp only [mapEnd, flashPage] at *; omega)).2 ⟨i, d, hi, hne, hpage⟩
  have hflash' : ((compareEnd m (storeRecords u flash) flash h).setBuf b).flash = flash := hflash
  rw [hmain, writePass_outside (hinfo.trans hcmp.suInfo) ho, herase, hflash']
  exact ⟨fun he => if_pos (hiff.2 he), fun he => if_neg fun hc => he (hiff.1 hc)⟩

/-- **An update changes nothing outside its image**, just when the pages it
erases have nothing outside the image. -/
theorem outside_iff (hpast : PastSearch m u flash) (hgo : (main m u flash).hung = false) :
    (∀ a, Outside (selected m u flash) a → (main m u flash).flash a = flash a) ↔
      ∀ a, Outside (selected m u flash) a → ErasesPage m u flash (selected m u flash) a →
        flash a = 0xff#8 := by
  obtain ⟨hbad, pre, h, post, hrs, ha⟩ := pastSearch_iff.1 hpast
  rw [selected_eq hrs ha.selects]
  constructor
  · intro hall a ho he
    rw [← hall a ho, (main_outside hbad hrs ha hgo ho).1 he]
  · intro hall a ho
    by_cases he : ErasesPage m u flash h a
    · rw [(main_outside hbad hrs ha hgo ho).1 he, hall a ho he]
    · exact (main_outside hbad hrs ha hgo ho).2 he

/-! ## An update that sticks out -/

/-- `Main` gets to `GoSoftDevice` when every comparison returns for as long as
a byte is as it was, which neither the erase loop nor the write pass gets
to. -/
theorem main_returns {pre post : List StoreRecord} {last : ℕ} (hbad : ¬ u.Bad)
    (hrs : storeRecords u flash = pre ++ .info h :: post) (ha : Applies pre h post)
    (ho : Outside h last) (hS : u.storeStart.toNat ≤ last / flashPage * flashPage)
    (hm : ∀ i d f, (StoreRecord.chunk d).WellFormed → ¬ Foreign h d → f last = flash last →
      m i d f ≠ none) : (main m u flash).hung = false := by
  obtain ⟨b, hmain⟩ := main_past (m := m) hbad hrs ha
  have hw := storeRecords_wellFormed u flash
  obtain ⟨hflash, -, hreturn, hdone⟩ := compareEnd_spec (m := m) flash hrs ha.selects hw
  have hhung : (compareEnd m (storeRecords u flash) flash h).hung = false :=
    hreturn.2 fun i d hi => by
      obtain ⟨hmem, hf⟩ := mem_accepted.1 (List.mem_of_getElem? hi)
      exact hm i d flash (hw _ hmem) hf rfl
  rw [hmain, if_neg (by simp [hhung])]
  split
  · exact hhung
  have hstart := UICR.start_le hbad
  obtain ⟨herase, -, hinfo, hkeep, -⟩ :=
    erasePages_spec (S := u.storeStart.toNat) flashPages flashPage
      ((compareEnd m (storeRecords u flash) flash h).setBuf b) (by decide)
      (by simp only [flashPages, flashPage]; omega)
  refine (writePass_inv (P := fun s =>
    Inside h (fun a => if a = last then flash a else s.flash a) s ∧
    s.hung = false) (fun _ _ => ⟨fun ⟨⟨h₁, h₂, h₃⟩, h₄⟩ => ⟨⟨h₁, h₂, h₃⟩, h₄⟩,
      fun ⟨⟨h₁, h₂, h₃⟩, h₄⟩ => ⟨⟨h₁, h₂, h₃⟩, h₄⟩⟩) (fun r s hr hP => ?_) ?_).2
  · obtain ⟨hin, hs⟩ := hP
    have hlast : s.flash last = flash last := (hin.outside last ho).trans (if_pos rfl)
    have hnext := hin.step (m := m) hr
    have hlast' := hnext.outside last ho
    refine ⟨⟨hnext.op, hnext.suInfo, fun a _ => ?_⟩, ?_⟩
    · by_cases hal : a = last
      · subst hal
        simpa using hlast'
      · simp [hal]
    · have hcalled := callback_called (m := m) r s
      generalize callback m r s = s' at hcalled
      cases hcalled with
      | hang d _ hf hnone =>
        rw [hin.suInfo] at hf
        exact absurd hnone (hm _ d _ hr hf hlast)
      | _ => exact hs
  · refine ⟨⟨rfl, hinfo.trans ((hdone hhung).1.suInfo), fun a _ => ?_⟩, hkeep.trans hhung⟩
    by_cases hal : a = last
    · subst hal
      have hno : ¬ Erased u.storeStart.toNat flashPage
          ((compareEnd m (storeRecords u flash) flash h).setBuf b).pages a := by
        intro he
        have := he.2.1
        omega
      simpa [herase, hno] using congrFun hflash a
    · simp [hal]

/-- With zeros behind each chunk in RAM a comparison returns at the last byte
of flash. -/
theorem loaderMemcmp_zeros {i : ℕ} {d : SuData} {f : ℕ → Byte}
    (hd : (StoreRecord.chunk d).WellFormed) (hend : d.address.toNat + 64 < flashSize)
    (hf : f (flashSize - 1) = 0xff#8) :
    loaderMemcmp (fun _ => List.replicate flashSize 0#8) i d f ≠ none := by
  rw [loaderMemcmp, memcmp_ne_none_iff (by decide)]
  have hlen := hd.2.2
  have hsize : flashSize = 0x80000 := rfl
  have hchunk : oqSuChunk = 64 := rfl
  refine ⟨flashSize - 1 - d.address.toNat, 0#8, 0xff#8, ?_, ?_, by decide⟩
  · rw [List.getElem?_append_right (by omega), List.getElem?_replicate, if_pos (by omega)]
  · rw [getElem?_flashBytes (by omega), ← hf]
    congr 2
    omega

/-- The chunks of `0x1040 .. 0x2040`. -/
abbrev stickingChunks : List StoreRecord := chunksFrom 1#32 0x1040 64 (List.replicate 64 0#8)

/-- Its header. -/
abbrev stickingHeader : SuInfo := ⟨1#32, 5#32, 0x1040#32, 0x2040#32⟩

/-- A flash with that update in the store, over code of ones. -/
def stickingFlash : ℕ → Byte :=
  storeOf 0x20000 94 0 (.info stickingHeader :: (stickingChunks ++ [.exec ⟨1#32, 5#32⟩]))
    fun _ => 1#8

theorem storeRecords_sticking : storeRecords uicr₀ stickingFlash =
    [] ++ .info stickingHeader :: (stickingChunks ++ [.exec ⟨1#32, 5#32⟩]) := by
  refine storeRecords_storeOf uicr₀_paged (by simp) (by simp [chunksFrom])
    (by decide) fun r hr => ?_
  rcases List.mem_cons.1 hr with rfl | hr
  · exact ⟨by decide, by decide, by decide, by decide, by decide⟩
  rcases List.mem_append.1 hr with hr | hr
  · exact chunksFrom_fits (by decide) (by decide) (by decide) (by simp) r hr
  · obtain rfl := List.mem_singleton.1 hr
    exact ⟨by decide⟩

theorem sticking_applies : Applies [] stickingHeader (stickingChunks ++ [.exec ⟨1#32, 5#32⟩]) := by
  have hs : Selects [] stickingHeader (stickingChunks ++ [.exec ⟨1#32, 5#32⟩]) :=
    ⟨by decide, by decide, by simp, by simp [chunksFrom]⟩
  refine ⟨hs, complete_chunksFrom _ _ _ (by decide) (by decide) (by decide) (by decide)
    fun r hr => List.mem_append_left _ hr, ?_⟩
  obtain ⟨hnew, hforce⟩ := search_of_chunks stickingChunks fun r hr => chunksFrom_chunks hr
  rw [List.nil_append, versionInForce, if_pos ⟨by decide, by decide⟩, versionInForce_append, hforce]
  change versionInForce (newestSequence 1#32 stickingChunks) 0#32 [.exec ⟨1#32, 5#32⟩] = 5#32
  rw [hnew]
  decide

/-- The comparison of the examples. -/
abbrev zeroMemcmp : Comparator := loaderMemcmp fun _ => List.replicate flashSize 0#8

theorem sticking_past : PastSearch zeroMemcmp uicr₀ stickingFlash :=
  pastSearch_iff.2 ⟨by decide, [], _, _, storeRecords_sticking, sticking_applies⟩

theorem sticking_returns : (main zeroMemcmp uicr₀ stickingFlash).hung = false := by
  have hlast : stickingFlash (flashSize - 1) = 0xff#8 := by
    rw [stickingFlash, storeOf, imageOf, if_neg (by decide), pagesOf, if_neg (by decide)]
    decide
  have hout : Outside stickingHeader (flashSize - 1) := by decide
  refine main_returns (by decide) storeRecords_sticking sticking_applies hout (by decide)
    fun i d f hd hf hsame => loaderMemcmp_zeros hd ?_ (hsame.trans hlast)
  have := (not_foreign_iff hd.2.1).1 hf
  have hstop : stickingHeader.stop.toNat = 0x2040 := rfl
  simp only [flashSize, flashPages, flashPage]
  omega

/-- The update that sticks out. -/
theorem outside_iff_sticking :
    (∀ a, Outside (selected zeroMemcmp uicr₀ stickingFlash) a →
        (main zeroMemcmp uicr₀ stickingFlash).flash a = stickingFlash a) ↔
      ∀ a, Outside (selected zeroMemcmp uicr₀ stickingFlash) a →
        ErasesPage zeroMemcmp uicr₀ stickingFlash (selected zeroMemcmp uicr₀ stickingFlash) a →
        stickingFlash a = 0xff#8 :=
  outside_iff sticking_past sticking_returns

/-- **What was before the image in its first page is gone.** -/
theorem not_outside : PastSearch zeroMemcmp uicr₀ stickingFlash ∧
    (main zeroMemcmp uicr₀ stickingFlash).hung = false ∧
    ¬ ∀ a, Outside (selected zeroMemcmp uicr₀ stickingFlash) a →
      (main zeroMemcmp uicr₀ stickingFlash).flash a = stickingFlash a := by
  refine ⟨sticking_past, sticking_returns, fun hall => ?_⟩
  have ho : Outside stickingHeader 0x1000 := by decide
  have hsame := hall 0x1000 (by
    rw [selected_eq storeRecords_sticking sticking_applies.selects]
    exact ho)
  -- the first chunk is in the same page
  have hmem : ⟨1#32, 0x1040#32, List.replicate 64 0#8⟩ ∈
      accepted stickingHeader (storeRecords uicr₀ stickingFlash) := by
    rw [storeRecords_sticking]
    refine mem_accepted.2 ⟨?_, by decide⟩
    have hfirst : .chunk ⟨1#32, 0x1040#32, List.replicate 64 0#8⟩ ∈ stickingChunks :=
      mem_chunksFrom.2 ⟨0, by decide, rfl⟩
    exact List.mem_cons_of_mem _ (List.mem_append_left _ hfirst)
  obtain ⟨i, hi⟩ := List.getElem?_of_mem hmem
  have herase : ErasesPage zeroMemcmp uicr₀ stickingFlash stickingHeader 0x1000 :=
    ⟨by decide, i, _, hi, loaderMemcmp_ne_zero _ _ _, by decide, by decide⟩
  have hff := (main_outside (by decide) storeRecords_sticking sticking_applies
    sticking_returns ho).1
    herase
  rw [hsame] at hff
  have hone : stickingFlash 0x1000 = 1#8 := by
    rw [stickingFlash, storeOf, imageOf, if_pos (by decide)]
  exact absurd (hone.symm.trans hff) (by decide)

end Loader

end AntTracer
