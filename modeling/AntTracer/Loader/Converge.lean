import AntTracer.Loader.Safety

/-!
# Interrupted updates

Whatever flash holds when `Main` begins, an update that is below the store is
in flash when it ends: the compare pass marks every page that has to be
erased, and after the erase loop every chunk is blank or in flash already, so
that programming does what it should. `memcmp` is the standard one here.

The pages erased have to lie below the store. A store that does not begin on
a page boundary loses records to the erase loop, and the write pass does not
find them any more (`not_converges`).
-/

namespace AntTracer

namespace Loader

variable {u : UICR} {flash : ℕ → Byte} {h : SuInfo} {rs pre post : List StoreRecord}

/-! ## The standard comparison -/

theorem stdMemcmp_eq_zero {n : ℕ} : ∀ {l r : List Byte}, l.length = n → r.length = n →
    (stdMemcmp n l r = 0 ↔ l = r) := by
  induction n with
  | zero =>
    intro l r hl hr
    rw [List.eq_nil_of_length_eq_zero hl, List.eq_nil_of_length_eq_zero hr]
    simp [stdMemcmp]
  | succ n ih =>
    intro l r hl hr
    match l, r, hl, hr with
    | x :: l, y :: r, hl, hr =>
      simp only [List.length_cons, Nat.add_right_cancel_iff] at hl hr
      rw [stdMemcmp, List.cons.injEq]
      by_cases h₁ : x < y
      · simp [h₁, BitVec.ne_of_lt h₁]
      by_cases h₂ : x > y
      · simp [h₁, h₂, (BitVec.ne_of_lt h₂).symm]
      · have heq : x = y := by
          simp only [BitVec.not_lt, GT.gt] at h₁ h₂
          exact BitVec.le_antisymm h₂ h₁
        simp [heq, ih hl hr]

/-- The chunk is in flash. -/
def Settled (flash : ℕ → Byte) (d : SuData) : Prop :=
  flashBytes flash d.address.toNat oqSuChunk = d.data

/-- Flash is erased where the chunk goes. -/
def Blank (flash : ℕ → Byte) (d : SuData) : Prop :=
  ∀ a, d.address.toNat ≤ a → a < d.address.toNat + oqSuChunk → flash a = 0xff#8

theorem stdCompare_eq_zero {i : ℕ} {d : SuData} (hlen : d.data.length = oqSuChunk) :
    stdCompare i d flash = some 0 ↔ Settled flash d := by
  rw [stdCompare, Option.some.injEq, stdMemcmp_eq_zero hlen (by simp [flashBytes]),
    Settled, eq_comm]

theorem Settled.flash_eq {d : SuData} (hs : Settled flash d) {a : ℕ} (h₁ : d.address.toNat ≤ a)
    (h₂ : a < d.address.toNat + oqSuChunk) : flash a = d.data.getD (a - d.address.toNat) 0#8 := by
  rw [← hs, List.getD_eq_getElem?_getD, getElem?_flashBytes (by omega), Option.getD_some,
    Nat.add_sub_cancel' h₁]

theorem Settled.congr {flash' : ℕ → Byte} {d : SuData} (hs : Settled flash d)
    (heq : ∀ a, d.address.toNat ≤ a → a < d.address.toNat + oqSuChunk → flash' a = flash a) :
    Settled flash' d := by
  rw [Settled, ← hs]
  refine List.map_congr_left fun i hi => heq _ (by omega) ?_
  have := List.mem_range.1 hi
  omega

/-! ## The write pass -/

/-- Chunk records for one address carry the same bytes. -/
def Consistent (ds : List SuData) : Prop :=
  ∀ d ∈ ds, ∀ d' ∈ ds, d.address = d'.address → d.data = d'.data

/-- Programming a blank chunk puts it into flash. -/
theorem settled_program {d : SuData} (hb : Blank flash d) (hlen : d.data.length = oqSuChunk) :
    Settled ((FlashOp.program d.address.toNat d.data).apply flash) d := by
  refine List.ext_getElem (by simp [flashBytes, hlen]) fun i h₁ h₂ => ?_
  simp only [flashBytes, List.getElem_map, List.getElem_range, FlashOp.apply, hlen]
  rw [hlen] at h₂
  rw [if_pos (by omega), hb _ (by omega) (by omega), Nat.add_sub_cancel_left,
    List.getD_eq_getElem _ _ (by omega), BitVec.and_comm]
  exact BitVec.and_allOnes

/-- Programming a chunk leaves those at other addresses alone. -/
theorem program_apart {d d' : SuData} (hlen : d.data.length = oqSuChunk)
    (hd : d.address.toNat % oqSuChunk = 0) (hd' : d'.address.toNat % oqSuChunk = 0)
    (hne : d.address ≠ d'.address) {a : ℕ} (h₁ : d'.address.toNat ≤ a)
    (h₂ : a < d'.address.toNat + oqSuChunk) :
    (FlashOp.program d.address.toNat d.data).apply flash a = flash a := by
  have hne' : d.address.toNat ≠ d'.address.toNat := fun h => hne (BitVec.eq_of_toNat_eq h)
  refine if_neg fun ⟨h₃, h₄⟩ => ?_
  rw [hlen] at h₄
  simp only [oqSuChunk] at *
  omega

/-- Programming a chunk that is in flash leaves it there. -/
theorem Settled.program {d : SuData} (hs : Settled flash d) (hlen : d.data.length = oqSuChunk) :
    Settled ((FlashOp.program d.address.toNat d.data).apply flash) d := by
  rw [Settled]
  conv_rhs => rw [← hs]
  refine List.map_congr_left fun i hi => ?_
  have hi' := List.mem_range.1 hi
  have heq := hs.flash_eq (a := d.address.toNat + i) (by omega) (by omega)
  rw [Nat.add_sub_cancel_left, List.getD_eq_getElem _ _ (by omega)] at heq
  rw [FlashOp.apply, hlen, if_pos (by omega), Nat.add_sub_cancel_left,
    List.getD_eq_getElem _ _ (by omega), heq]
  exact BitVec.and_self

/-- The comparison finds no chunk equal that is not in flash. -/
def Truthful (m : Comparator) : Prop :=
  ∀ i d f, d.data.length = oqSuChunk → m i d f = some 0 → Settled f d

theorem truthful_std : Truthful stdCompare := fun _ _ _ hlen => (stdCompare_eq_zero hlen).1

section Settling

variable {m : Comparator}

/-- **A chunk of the write pass** is in flash after it, and none is lost. -/
theorem visit_settles (hm : Truthful m) {ds : List SuData} {s : State} {d : SuData}
    (hs : Writing h s) (hmem : d ∈ ds) (hf : ¬ Foreign h d) (hcons : Consistent ds)
    (hshape : ∀ d ∈ ds, d.address.toNat % oqSuChunk = 0 ∧ d.data.length = oqSuChunk)
    (hready : ∀ d ∈ ds, Blank s.flash d ∨ Settled s.flash d)
    (hgo : (visit m d s).hung = false) :
    Writing h (visit m d s) ∧ Settled (visit m d s).flash d ∧
      (∀ d' ∈ ds, Settled s.flash d' → Settled (visit m d s).flash d') ∧
      ∀ d' ∈ ds, Blank (visit m d s).flash d' ∨ Settled (visit m d s).flash d' := by
  have hlen := (hshape d hmem).2
  rcases hs.visit (m := m) hf with
    ⟨-, hhung, -⟩ | ⟨hnext, -, ⟨hz, hflash, -⟩ | ⟨r, -, -, hflash, -⟩⟩
  · exact absurd (hhung.symm.trans hgo) (by decide)
  · rw [hflash]
    exact ⟨hnext, hm _ _ _ hlen hz, fun _ _ h => h, hready⟩
  · have hset : Settled (visit m d s).flash d := by
      rw [hflash]
      exact (hready d hmem).elim (fun h => settled_program h hlen) fun h => h.program hlen
    have hsame : ∀ d' ∈ ds, d.address = d'.address → Settled (visit m d s).flash d' := by
      intro d' hd' heq
      rw [Settled, ← heq, ← hcons d hmem d' hd' heq]
      exact hset
    have hapart : ∀ d' ∈ ds, d.address ≠ d'.address → ∀ a, d'.address.toNat ≤ a →
        a < d'.address.toNat + oqSuChunk → (visit m d s).flash a = s.flash a := by
      intro d' hd' hne' a h₁ h₂
      rw [hflash]
      exact program_apart hlen (hshape d hmem).1 (hshape d' hd').1 hne' h₁ h₂
    refine ⟨hnext, hset, fun d' hd' hset' => ?_, fun d' hd' => ?_⟩
    · by_cases heq : d.address = d'.address
      · exact hsame d' hd' heq
      · exact hset'.congr (hapart d' hd' heq)
    · by_cases heq : d.address = d'.address
      · exact Or.inr (hsame d' hd' heq)
      · refine (hready d' hd').imp (fun hb a h₁ h₂ => ?_) fun hs' => hs'.congr (hapart d' hd' heq)
        rw [hapart d' hd' heq a h₁ h₂]
        exact hb a h₁ h₂

/-- **The write pass** puts every chunk into flash. -/
theorem visitAll_settles (hm : Truthful m) {ds : List SuData} (hcons : Consistent ds)
    (hshape : ∀ d ∈ ds, d.address.toNat % oqSuChunk = 0 ∧ d.data.length = oqSuChunk)
    (hf : ∀ d ∈ ds, ¬ Foreign h d) (todo : List SuData) : ∀ {s : State}, Writing h s →
      (∀ d ∈ todo, d ∈ ds) → (∀ d ∈ ds, Blank s.flash d ∨ Settled s.flash d) →
      (visitAll m todo s).hung = false →
      (∀ d ∈ ds, Settled s.flash d → Settled (visitAll m todo s).flash d) ∧
        ∀ d ∈ todo, Settled (visitAll m todo s).flash d := by
  induction todo with
  | nil => exact fun _ _ _ _ => ⟨fun _ _ h => h, fun d hd => by cases hd⟩
  | cons d todo ih =>
    intro s hs hsub hready hgo
    have hmem := hsub d (List.mem_cons_self ..)
    rw [visitAll_cons] at hgo ⊢
    have hgo' : (visit m d s).hung = false := by
      by_contra hhung
      rw [visitAll_of_hung todo (by simpa using hhung)] at hgo
      exact hhung hgo
    obtain ⟨hnext, hset, hkeep, hready'⟩ :=
      visit_settles hm hs hmem (hf d hmem) hcons hshape hready hgo'
    obtain ⟨h₁, h₂⟩ := ih hnext (fun d' h' => hsub d' (List.mem_cons_of_mem _ h')) hready' hgo
    refine ⟨fun d' hd' h' => h₁ d' hd' (hkeep d' hd' h'), fun d' hd' => ?_⟩
    rcases List.mem_cons.1 hd' with rfl | hd'
    · exact h₁ _ hmem hset
    · exact h₂ d' hd'

/-! ## The whole run -/

/-- **Between the passes** a chunk is in flash, or its page is erased. -/
theorem blank_or_settled (hm : Truthful m) (flash : ℕ → Byte) (hbad : ¬ u.Bad)
    (hrs : rs = pre ++ .info h :: post) (ha : Applies pre h post) (hw : ∀ r ∈ rs, r.WellFormed)
    (hstop : h.stop.toNat < mapEnd) (hstart : h.stop.toNat ≤ u.storeStart.toNat)
    (hgo : (compareEnd m rs flash h).hung = false) {d : SuData} (hd : d ∈ accepted h rs) :
    Blank (erasePages u.storeStart.toNat flashPages flashPage
        (compareEnd m rs flash h)).flash d ∨
      Settled (erasePages u.storeStart.toNat flashPages flashPage
        (compareEnd m rs flash h)).flash d := by
  have hS := UICR.start_le hbad
  obtain ⟨hflash, -, -, hdone⟩ := compareEnd_spec (m := m) flash hrs ha.selects hw
  obtain ⟨-, -, hpages, -⟩ := hdone hgo
  obtain ⟨herase, -⟩ := erasePages_spec (S := u.storeStart.toNat) flashPages flashPage
    (compareEnd m rs flash h) (by decide) (by simp only [flashPages, flashPage]; omega)
  obtain ⟨hlow, -, hmod, hlen⟩ := accepted_bounds ha.selects.sane hw hd
  obtain ⟨hmem, hf⟩ := mem_accepted.1 hd
  have hhigh := ((not_foreign_iff (hw _ hmem).2.1).1 hf).2.2
  -- all of the chunk is in one page
  have hpage : ∀ a, d.address.toNat ≤ a → a < d.address.toNat + oqSuChunk →
      a / flashPage = d.address.toNat / flashPage := by
    intro a h₁ h₂
    simp only [oqSuChunk, flashPage] at *
    omega
  have hp : d.address.toNat / flashPage < 64 := by simp only [mapEnd, flashPage] at *; omega
  by_cases hset : mapIsSet (compareEnd m rs flash h).pages
      (d.address.toNat / flashPage * flashPage) = true
  · refine Or.inl fun a h₁ h₂ => ?_
    rw [herase, if_pos]
    refine ⟨?_, ?_, by rwa [hpage a h₁ h₂]⟩
    · rw [hpage a h₁ h₂]
      simp only [flashPage]
      omega
    · rw [hpage a h₁ h₂]
      simp only [flashPage]
      omega
  · refine Or.inr ?_
    obtain ⟨i, hi⟩ := List.getElem?_of_mem hd
    have hzero : m i d flash = some 0 := by
      by_contra hne
      exact hset ((hpages _ hp).2 ⟨i, d, hi, hne, rfl⟩)
    refine (hm i d flash hlen hzero).congr fun a h₁ h₂ => ?_
    rw [herase, if_neg fun he => hset (by rw [← hpage a h₁ h₂]; exact he.2.2), hflash]

/-- **The chunks of an update below `0x40000` are in flash** when `Main` ends,
whatever flash held before. -/
theorem mainRecords_settles_of (hm : Truthful m) (flash : ℕ → Byte) (hbad : ¬ u.Bad)
    (hrs : rs = pre ++ .info h :: post) (ha : Applies pre h post) (hw : ∀ r ∈ rs, r.WellFormed)
    (hstop : h.stop.toNat < mapEnd) (hstart : h.stop.toNat ≤ u.storeStart.toNat)
    (hcons : Consistent (accepted h rs)) (hgo : (mainRecords m rs u flash).hung = false) :
    ∀ d ∈ accepted h rs, Settled (mainRecords m rs u flash).flash d := by
  have hS := UICR.start_le hbad
  obtain ⟨hflash, -, -, hdone⟩ := compareEnd_spec (m := m) flash hrs ha.selects hw
  have hshape : ∀ d ∈ accepted h rs, d.address.toNat % oqSuChunk = 0 ∧ d.data.length = oqSuChunk :=
    fun d hd => (accepted_bounds ha.selects.sane hw hd).2.2
  have hlt : ∀ d ∈ accepted h rs, d.address.toNat + oqSuChunk ≤ h.stop.toNat := by
    intro d hd
    obtain ⟨hmem, hf⟩ := mem_accepted.1 hd
    exact ((not_foreign_iff (hw _ hmem).2.1).1 hf).2.2
  rw [mainRecords_past hbad hrs ha hw] at hgo ⊢
  have hhung : (compareEnd m rs flash h).hung = false := by
    by_contra hno
    rw [if_pos (by simpa using hno)] at hgo
    exact hno hgo
  obtain ⟨hcmp, -, -, hclear⟩ := hdone hhung
  rw [if_neg (by simp [hhung])] at hgo ⊢
  by_cases hc : mapIsClearAll (compareEnd m rs flash h).pages = true
  · -- nothing differs
    rw [if_pos hc]
    intro d hd
    obtain ⟨i, hi⟩ := List.getElem?_of_mem hd
    rw [hflash]
    have hd' := hlt d hd
    exact hm i d flash (hshape d hd).2 (hclear.1 hc i d hi (by omega))
  · rw [if_neg hc] at hgo ⊢
    obtain ⟨-, -, hinfo, hhung', -⟩ :=
      erasePages_spec (S := u.storeStart.toNat) flashPages flashPage (compareEnd m rs flash h)
        (by decide) (by simp only [flashPages, flashPage]; omega)
    exact (visitAll_settles hm hcons hshape (fun d hd => (mem_accepted.1 hd).2)
      (accepted h rs) (s := { erasePages u.storeStart.toNat flashPages flashPage
        (compareEnd m rs flash h) with op := .write })
      ⟨rfl, hinfo.trans hcmp.suInfo, hhung'.trans hhung⟩ (fun _ h => h)
      (fun d hd => blank_or_settled hm flash hbad hrs ha hw hstop hstart hhung hd) hgo).2

end Settling

/-- The standard comparison returns. -/
theorem mainRecords_std_returns (flash : ℕ → Byte) (hbad : ¬ u.Bad)
    (hrs : rs = pre ++ .info h :: post) (ha : Applies pre h post) (hw : ∀ r ∈ rs, r.WellFormed) :
    (mainRecords stdCompare rs u flash).hung = false := by
  have hS := UICR.start_le hbad
  obtain ⟨-, -, hreturn, hdone⟩ := compareEnd_spec (m := stdCompare) flash hrs ha.selects hw
  have hhung : (compareEnd stdCompare rs flash h).hung = false :=
    hreturn.2 fun i d _ => Option.some_ne_none _
  rw [mainRecords_past hbad hrs ha hw, if_neg (by simp [hhung])]
  split
  · exact hhung
  obtain ⟨-, -, hinfo, hhung', -⟩ :=
    erasePages_spec (S := u.storeStart.toNat) flashPages flashPage
      (compareEnd stdCompare rs flash h) (by decide) (by simp only [flashPages, flashPage]; omega)
  have hd : ∀ d ∈ accepted h rs, ¬ Foreign h d := fun d hd => (mem_accepted.1 hd).2
  refine Writing.visitAll_inv (P := fun s => s.hung = false) hd (fun d hmem s hs _ => ?_)
    (s := { erasePages u.storeStart.toNat flashPages flashPage
      (compareEnd stdCompare rs flash h) with op := .write })
    ⟨rfl, hinfo.trans (hdone hhung).1.suInfo, hhung'.trans hhung⟩ (hhung'.trans hhung)
  rcases hs.visit (m := stdCompare) (hd d hmem) with ⟨hnone, -⟩ | ⟨hnext, -⟩
  · exact absurd hnone (Option.some_ne_none _)
  · exact hnext.hung

/-- And puts the chunks into flash. -/
theorem mainRecords_settles (flash : ℕ → Byte) (hbad : ¬ u.Bad) (hrs : rs = pre ++ .info h :: post)
    (ha : Applies pre h post) (hw : ∀ r ∈ rs, r.WellFormed)
    (hstop : h.stop.toNat < mapEnd) (hstart : h.stop.toNat ≤ u.storeStart.toNat)
    (hcons : Consistent (accepted h rs)) :
    (mainRecords stdCompare rs u flash).hung = false ∧
      ∀ d ∈ accepted h rs, Settled (mainRecords stdCompare rs u flash).flash d :=
  have hgo := mainRecords_std_returns flash hbad hrs ha hw
  ⟨hgo, mainRecords_settles_of truthful_std flash hbad hrs ha hw hstop hstart hcons hgo⟩

/-- A chunk record of the update for this address. -/
def ChunkAt (rs : List StoreRecord) (h : SuInfo) (d : SuData) (a : ℕ) : Prop :=
  .chunk d ∈ rs ∧ d.sequence = h.sequence ∧ d.address.toNat ≤ a ∧ a < d.address.toNat + oqSuChunk

/-- The chunk records of the update for one address carry the same bytes. -/
def SameData (rs : List StoreRecord) (h : SuInfo) : Prop :=
  ∀ d d', .chunk d ∈ rs → .chunk d' ∈ rs → d.sequence = h.sequence → d'.sequence = h.sequence →
    d.address = d'.address → d.data = d'.data

/-- **Interrupted updates converge**: from any content of flash, `Main` ends
with the update in flash, as long as the pages it may erase lie below the
store. -/
theorem converges (hpast : PastSearch stdCompare u flash)
    (hstop : (selected stdCompare u flash).stop.toNat < mapEnd)
    (hpages : ((selected stdCompare u flash).stop.toNat + (flashPage - 1)) / flashPage * flashPage ≤
      u.storeStart.toNat)
    (hsame : SameData (storeRecords u flash) (selected stdCompare u flash)) :
    (main stdCompare u flash).hung = false ∧
      ∀ a, (selected stdCompare u flash).start.toNat ≤ a →
        a < (selected stdCompare u flash).stop.toNat →
        (∃ d, ChunkAt (storeRecords u flash) (selected stdCompare u flash) d a) ∧
        ∀ d, ChunkAt (storeRecords u flash) (selected stdCompare u flash) d a →
          (main stdCompare u flash).flash a = d.data.getD (a - d.address.toNat) 0#8 := by
  obtain ⟨hbad, pre, h, post, hrs, ha⟩ := pastSearch_iff.1 hpast
  have hw := storeRecords_wellFormed u flash
  rw [selected_eq hrs ha.selects] at *
  have hhead : (StoreRecord.info h).WellFormed := hw _ (by simp [hrs])
  have hcons : Consistent (accepted h (storeRecords u flash)) := by
    intro d hd d' hd' heq
    obtain ⟨h₁, h₂⟩ := mem_accepted.1 hd
    obtain ⟨h₃, h₄⟩ := mem_accepted.1 hd'
    exact hsame d d' h₁ h₃ ((not_foreign_iff (hw _ h₁).2.1).1 h₂).1
      ((not_foreign_iff (hw _ h₃).2.1).1 h₄).1 heq
  have hround : h.stop.toNat ≤ u.storeStart.toNat := by
    refine le_trans ?_ hpages
    simp only [flashPage]
    omega
  obtain ⟨hhung, hsettled⟩ := mainRecords_settles flash hbad hrs ha hw hstop hround hcons
  -- the store stays as it is
  have hclear : ∀ d ∈ accepted h (storeRecords u flash), Clear u.storeStart.toNat d := by
    intro d hd
    obtain ⟨h₁, h₂⟩ := mem_accepted.1 hd
    have hb := ((not_foreign_iff (hw _ h₁).2.1).1 h₂).2.2
    refine ⟨by simp only [oqSuChunk]; omega, fun _ hs => ?_⟩
    simp only [Straddles, flashPage] at *
    omega
  have hundamaged := undamaged_of_clear (m := stdCompare) flash hbad hrs ha hw hclear
  rcases main_refines stdCompare u flash with ⟨-, b, hb⟩ | ⟨h₁, -⟩
  swap
  · exact absurd hundamaged h₁
  rw [hb]
  refine ⟨hhung, fun a h₁ h₂ => ⟨?_, ?_⟩⟩
  · have hmod := hhead.1
    obtain ⟨d, hd, hf, haddr⟩ := ha.complete hstop (a / oqSuChunk * oqSuChunk)
      (Nat.mul_mod_left _ _) (by simp only [oqSuChunk] at *; omega)
      (by simp only [oqSuChunk] at *; omega)
    have hmem : StoreRecord.chunk d ∈ storeRecords u flash := by simp [hrs, hd]
    refine ⟨d, hmem, ((not_foreign_iff (hw _ hmem).2.1).1 hf).1, ?_, ?_⟩
    · simp only [oqSuChunk] at *
      omega
    · simp only [oqSuChunk] at *
      omega
  · rintro d ⟨hmem, hseq, h₃, h₄⟩
    have hwell : (StoreRecord.chunk d).WellFormed := hw _ hmem
    have hf : ¬ Foreign h d := by
      refine (not_foreign_iff hwell.2.1).2 ⟨hseq, ?_⟩
      have h₅ := hwell.1
      have h₆ := hhead.1
      have h₇ := hhead.2
      simp only [oqSuChunk] at *
      omega
    exact (hsettled d (mem_accepted.2 ⟨hmem, hf⟩)).flash_eq h₃ h₄

theorem converges_one :
    (main stdCompare uicr₀ (oneUpdateFlash fun _ => 0xff#8)).hung = false ∧
      ∀ a, (selected stdCompare uicr₀ (oneUpdateFlash fun _ => 0xff#8)).start.toNat ≤ a →
        a < (selected stdCompare uicr₀ (oneUpdateFlash fun _ => 0xff#8)).stop.toNat →
        (∃ d, ChunkAt (storeRecords uicr₀ (oneUpdateFlash fun _ => 0xff#8))
          (selected stdCompare uicr₀ (oneUpdateFlash fun _ => 0xff#8)) d a) ∧
        ∀ d, ChunkAt (storeRecords uicr₀ (oneUpdateFlash fun _ => 0xff#8))
            (selected stdCompare uicr₀ (oneUpdateFlash fun _ => 0xff#8)) d a →
          (main stdCompare uicr₀ (oneUpdateFlash fun _ => 0xff#8)).flash a =
            d.data.getD (a - d.address.toNat) 0#8 := by
  refine converges (oneUpdate_past _ _) ?_ ?_ ?_
  · rw [oneUpdate_selected]
    decide
  · rw [oneUpdate_selected]
    decide
  · rw [storeRecords_oneUpdate]
    intro d d' hd hd' _ _ _
    simp only [oneUpdate, List.mem_cons, reduceCtorEq, List.mem_append, mem_chunksFrom,
      List.not_mem_nil, or_false, false_or] at hd hd'
    obtain ⟨i, -, rfl⟩ := hd
    obtain ⟨j, -, rfl⟩ := hd'
    rfl

/-! ## A store that does not begin on a page boundary -/

section Unaligned

variable {m : Comparator}

/-- **The write pass reads the store as the erase loop has left it.** -/
theorem writePass_eq {s : State} (hstop : s.suInfo.stop.toNat ≤ u.storeStart.toNat) :
    ∃ b, writePass (storeRead m u) s =
      (runRecords m (storeRecords u s.flash) { s with op := .write }).setBuf b := by
  have hk : (reader m).Keeps (deliver m) u.region.start (flashWord s.flash) (fun _ => True)
      fun s' => s'.op = .write ∧ s'.suInfo.stop.toNat ≤ u.storeStart.toNat ∧
        ∀ a, u.storeStart.toNat ≤ a → s'.flash a = s.flash a := by
    refine ⟨fun s' hJ _ a ha => flashWord_congr fun i hi => hJ.2.2 i (le_trans ha hi),
      fun s' l hJ => ?_, fun _ _ h => absurd True.intro h, fun _ _ => Iff.rfl, fun _ _ => Iff.rfl⟩
    unfold deliver
    cases hl : decode l with
    | none => exact hJ
    | some r =>
      obtain ⟨hop, hle, hsame⟩ := hJ
      have hinfo : (callback m r s').suInfo = s'.suInfo :=
        callback_suInfo (by rw [hop]; decide) r
      refine ⟨(callback_op r s').trans hop, by rwa [Option.elim_some, hinfo], fun a ha => ?_⟩
      rw [Option.elim_some, ← hsame a ha]
      rcases callback_flash (m := m) r s' with ⟨h₁, -⟩ | ⟨d, rfl, -, hf, h₁, -⟩
      · rw [h₁]
      · have hd : (StoreRecord.chunk d).WellFormed := wellFormed_of_decode hl
        have := (not_foreign_iff hd.2.1).1 hf
        rw [h₁]
        refine if_neg fun ⟨_, h₂⟩ => ?_
        rw [hd.2.2] at h₂
        simp only [oqSuChunk] at h₂
        omega
  obtain ⟨-, ⟨-, b, hb⟩ | ⟨hno, -⟩⟩ := readFlash_sim (g := u.region) (reader_delivers m) hk
    (s := { s with op := .write }) ⟨rfl, hstop, fun _ _ => rfl⟩ True.intro
  · rw [deliverAll_eq] at hb
    exact ⟨b, hb⟩
  · exact absurd True.intro hno

/-- A UICR with a store of 67 pages that begins inside a flash page. -/
def uicr₁ : UICR := ⟨0x2040#32, 0x45040#32⟩

theorem uicr₁_paged : uicr₁.Paged 67 := ⟨by decide, by decide, by decide⟩

/-- The records of an update of `0x1000 .. 0x2040`, but for the last chunk. -/
def mostOf : List StoreRecord :=
  [.info ⟨1#32, 5#32, 0x1000#32, 0x2040#32⟩, .exec ⟨1#32, 5#32⟩] ++ zeroChunks 1#32

/-- The last chunk. -/
def lastChunk : SuData := ⟨1#32, 0x2000#32, List.replicate 64 0#8⟩

/-- A flash with the update in the store. The last chunk is in the first page
of the store, which is the newest one. -/
def cutFlash : ℕ → Byte := storeOf 0x2040 67 1 (mostOf ++ [.chunk lastChunk]) fun _ => 0xff#8

theorem mostOf_fits : ∀ r ∈ mostOf, r.Fits := by
  intro r hr
  rcases List.mem_append.1 hr with hr | hr
  · simp only [List.mem_cons, List.not_mem_nil, or_false] at hr
    rcases hr with rfl | rfl
    · exact ⟨by decide, by decide, by decide, by decide, by decide⟩
    · exact ⟨by decide⟩
  · exact zeroChunks_fits (by decide) r hr

theorem length_mostOf : mostOf.length = 66 := by simp [mostOf, chunksFrom]

theorem storeRecords_cut : storeRecords uicr₁ cutFlash = mostOf ++ [.chunk lastChunk] := by
  refine storeRecords_storeOf uicr₁_paged (by simp) (by simp [length_mostOf]) (by decide)
    fun r hr => ?_
  rcases List.mem_append.1 hr with hr | hr
  · exact mostOf_fits r hr
  · obtain rfl := List.mem_singleton.1 hr
    exact ⟨by decide, by decide, by decide, by simp [lastChunk]⟩

/-- The first page of the store as it is when its first part has been
erased. -/
theorem cutFlash_erased {flash' : ℕ → Byte}
    (hlow : ∀ a, 0x2040 ≤ a → a < 0x3000 → flash' a = 0xff#8)
    (hhigh : ∀ a, 0x3000 ≤ a → flash' a = cutFlash a) :
    flash' = storeOf 0x2040 67 1 mostOf flash' := by
  have hfull : ∀ k, 0 < k → pagesOf 67 1 (mostOf ++ [.chunk lastChunk]) k =
    pagesOf 67 1 mostOf k := by
    intro k hk
    unfold pagesOf
    by_cases hk' : k < 67
    · rw [if_pos hk', if_pos hk', List.getElem?_append_left (by rw [length_mostOf]; omega)]
    · rw [if_neg hk', if_neg hk']
  have hfirst : pagesOf 67 1 mostOf 0 = [] := by
    rw [pagesOf, if_pos (by decide), List.getElem?_eq_none (by rw [length_mostOf])]
  funext a
  rw [storeOf, imageOf]
  by_cases h₁ : a < 0x2040
  · rw [if_pos h₁]
  rw [if_neg h₁]
  by_cases h₂ : a < 0x3000
  · rw [hlow a (by omega) h₂, show (a - 0x2040) / flashPage =
      0 by simp only [flashPage]; omega, hfirst]
    have : ∀ b < 4, 0xff#8 = (erasedWord >>> (8 * b)).setWidth 8 := by decide
    exact this _ (Nat.mod_lt _ (by decide))
  rw [hhigh a (by omega), cutFlash, storeOf, imageOf, if_neg h₁]
  by_cases h₃ : (a - 0x2040) / flashPage = 0
  · -- what is left of the first page was erased before
    have hpage : (pagesOf 67 1 (mostOf ++ [.chunk lastChunk]) 0).length ≤ 41 := by
      rw [pagesOf, if_pos (by decide), List.getElem?_append_right (by rw [length_mostOf]),
        length_mostOf]
      have hlast : lastChunk.Fits := ⟨by decide, by decide, by decide, by simp [lastChunk]⟩
      have := (StoreRecord.isFrame_words (r := .chunk lastChunk) hlast).length_le
      change (sequenceWord _ :: (StoreRecord.chunk lastChunk).words).length ≤ 41
      simp only [List.length_cons, bufferSize] at *
      omega
    rw [h₃, hfirst, List.getD_eq_default _ _ (by simp only [flashPage] at *; omega)]
    rfl
  · rw [hfull _ (Nat.pos_of_ne_zero h₃)]

/-- What the store holds then. -/
theorem storeRecords_erased {flash' : ℕ → Byte}
    (hlow : ∀ a, 0x2040 ≤ a → a < 0x3000 → flash' a = 0xff#8)
    (hhigh : ∀ a, 0x3000 ≤ a → flash' a = cutFlash a) : storeRecords uicr₁ flash' = mostOf := by
  rw [cutFlash_erased hlow hhigh]
  exact storeRecords_storeOf uicr₁_paged (by simp [mostOf]) (by simp [length_mostOf]) (by decide)
    mostOf_fits

/-- The header of that update. -/
abbrev cutHeader : SuInfo := ⟨1#32, 5#32, 0x1000#32, 0x2040#32⟩

/-- What follows it in the store. -/
abbrev cutRest : List StoreRecord :=
  .exec ⟨1#32, 5#32⟩ :: (zeroChunks 1#32 ++ [.chunk lastChunk])

theorem cut_applies : Applies [] cutHeader cutRest := by
  have hchunks : ∀ r ∈ zeroChunks 1#32 ++ [.chunk lastChunk], ∃ d, r = .chunk d := by
    intro r hr
    rcases List.mem_append.1 hr with hr | hr
    · exact chunksFrom_chunks hr
    · exact ⟨_, List.mem_singleton.1 hr⟩
  refine ⟨⟨by decide, by decide, by simp, fun i hi => ?_⟩,
    complete_chunksFrom 0x1000 65 (List.replicate 64 0#8) (by decide)
      (by decide) (by decide) (by decide) fun r hr => ?_, ?_⟩
  · rcases List.mem_cons.1 hi with hi | hi
    · cases hi
    · obtain ⟨d, hd⟩ := hchunks _ hi
      cases hd
  · rw [chunksFrom, List.range_succ, List.map_append] at hr
    exact List.mem_cons_of_mem _ hr
  · rw [List.nil_append, versionInForce, if_pos ⟨by decide, by decide⟩, versionInForce,
      (search_of_chunks _ hchunks).2]
    decide

/-- With the standard `memcmp` nothing runs off memory. -/
theorem runRecords_std_hung (rs : List StoreRecord) {s : State} (hs : s.hung = false) :
    (runRecords stdCompare rs s).hung = false := by
  refine runRecords_inv (P := fun s => s.hung = false) rs (fun r _ s hs => ?_) s hs
  have hcalled := callback_called (m := stdCompare) r s
  generalize callback stdCompare r s = s' at hcalled
  cases hcalled with
  | hang _ _ _ hc => cases hc
  | _ => exact hs

/-- None of the records left is programmed where the last chunk was to go. -/
theorem runRecords_mostOf {s : State} (hs : s.flash 0x2000 = 0xff#8) :
    (runRecords stdCompare mostOf s).flash 0x2000 = 0xff#8 := by
  refine runRecords_inv (P := fun s => s.flash 0x2000 = 0xff#8) mostOf (fun r hr s hs => ?_) s hs
  rcases callback_flash (m := stdCompare) r s with ⟨h, -⟩ | ⟨d, rfl, -, -, h, -⟩
  · rw [h]
    exact hs
  · simp only [mostOf, List.cons_append, List.nil_append, List.mem_cons, reduceCtorEq,
      mem_chunksFrom, false_or] at hr
    obtain ⟨i, hi, rfl⟩ := hr
    rw [h]
    refine (FlashOp.apply_of_not_touches (fun ht => ?_) _).trans hs
    simp only [FlashOp.Touches, List.length_replicate, oqSuChunk] at ht
    rw [BitVec.toNat_ofNat, Nat.mod_eq_of_lt (by omega)] at ht
    omega

/-- The records in the store, the header first. -/
theorem storeRecords_cut' : storeRecords uicr₁ cutFlash = [] ++ .info cutHeader :: cutRest := by
  rw [storeRecords_cut]
  rfl

/-- The compare pass gets to the end and marks the page of the last chunk. -/
theorem compareEnd_cut :
    (compareEnd stdCompare (storeRecords uicr₁ cutFlash) cutFlash cutHeader).hung = false ∧
      mapIsSet (compareEnd stdCompare (storeRecords uicr₁ cutFlash) cutFlash
        cutHeader).pages 0x2000 =
        true ∧
      ¬ mapIsClearAll
        (compareEnd stdCompare (storeRecords uicr₁ cutFlash) cutFlash cutHeader).pages = true := by
  obtain ⟨-, -, hreturn, hdone⟩ :=
    compareEnd_spec (m := stdCompare) cutFlash storeRecords_cut' cut_applies.selects
      (storeRecords_wellFormed uicr₁ cutFlash)
  have hhung := hreturn.2 fun i d _ => by simp [stdCompare]
  obtain ⟨-, -, hpages, hclear⟩ := hdone hhung
  have hblank : cutFlash 0x2000 = 0xff#8 := by simp [cutFlash, storeOf, imageOf]
  have hdiff : ∀ i, stdCompare i lastChunk cutFlash ≠ some 0 := by
    intro i hz
    have := ((stdCompare_eq_zero (by simp [lastChunk])).1 hz).flash_eq (a := 0x2000) (by decide)
      (by decide)
    rw [hblank] at this
    exact absurd this (by decide)
  have hacc : lastChunk ∈ accepted cutHeader (storeRecords uicr₁ cutFlash) :=
    mem_accepted.2 ⟨by simp [storeRecords_cut], by decide⟩
  obtain ⟨i, hi⟩ := List.getElem?_of_mem hacc
  exact ⟨hhung, (hpages 2 (by decide)).2 ⟨i, _, hi, hdiff i, by decide⟩,
    fun hc => hdiff i (hclear.1 hc i _ hi (by decide))⟩

/-- The erase loop takes the beginning of the store with it. -/
theorem erasePages_cut {s : State} (hflash : s.flash = cutFlash)
    (hset : mapIsSet s.pages 0x2000 = true) :
    (erasePages uicr₁.storeStart.toNat flashPages flashPage s).flash 0x2000 = 0xff#8 ∧
      storeRecords uicr₁ (erasePages uicr₁.storeStart.toNat flashPages flashPage s).flash =
        mostOf := by
  have herase := (erasePages_spec (S := uicr₁.storeStart.toNat) flashPages flashPage s (by decide)
    (by decide)).1
  generalize (erasePages uicr₁.storeStart.toNat flashPages flashPage s).flash = flash' at *
  have hpage : ∀ a, 0x2000 ≤ a → a < 0x3000 → flash' a = 0xff#8 := by
    intro a h₁ h₂
    have hdiv : a / flashPage = 2 := by simp only [flashPage]; omega
    rw [herase, if_pos ⟨by rw [hdiv]; decide, by rw [hdiv]; decide, by rw [hdiv]; exact hset⟩]
  have hrest : ∀ a, 0x3000 ≤ a → flash' a = cutFlash a := by
    intro a h₁
    rw [herase, if_neg, hflash]
    rintro ⟨-, h₂, -⟩
    have hS : uicr₁.storeStart.toNat = 0x2040 := by decide
    simp only [flashPage] at *
    omega
  exact ⟨hpage _ le_rfl (by decide),
    storeRecords_erased (fun a h₁ h₂ => hpage a (by omega) h₂) hrest⟩

/-- The write pass finds the records without the last chunk. -/
theorem writePass_cut {s : State} (hsel : s.suInfo = cutHeader) (hhung : s.hung = false)
    (hblank : s.flash 0x2000 = 0xff#8) (hrecords : storeRecords uicr₁ s.flash = mostOf)
    (b : Buffer) :
    ∃ t b', t.hung = false ∧ t.flash 0x2000 = 0xff#8 ∧
      writePass (storeRead stdCompare uicr₁) (s.setBuf b) =
        (runRecords stdCompare mostOf t).setBuf b' := by
  have hstop : (s.setBuf b).suInfo.stop.toNat ≤ uicr₁.storeStart.toNat := by
    change s.suInfo.stop.toNat ≤ _
    rw [hsel]
    decide
  obtain ⟨b', hb'⟩ := writePass_eq (u := uicr₁) (m := stdCompare) hstop
  rw [show (s.setBuf b).flash = s.flash from rfl, hrecords] at hb'
  exact ⟨{ s.setBuf b with op := .write }, b', hhung, hblank, hb'⟩

/-- `Main` runs those records. -/
theorem main_eq_mostOf : ∃ t b, t.hung = false ∧ t.flash 0x2000 = 0xff#8 ∧
    main stdCompare uicr₁ cutFlash = (runRecords stdCompare mostOf t).setBuf b := by
  obtain ⟨b, hb⟩ :=
    main_past (m := stdCompare) (by decide : ¬ uicr₁.Bad) storeRecords_cut' cut_applies
  obtain ⟨hhung, hset, hnot⟩ := compareEnd_cut
  obtain ⟨hflash, -, -, hdone⟩ :=
    compareEnd_spec (m := stdCompare) cutFlash storeRecords_cut' cut_applies.selects
      (storeRecords_wellFormed uicr₁ cutFlash)
  obtain ⟨hblank, hrecords⟩ := erasePages_cut hflash hset
  obtain ⟨-, -, hinfo, hhung', -⟩ := erasePages_spec (S := uicr₁.storeStart.toNat) flashPages
    flashPage (compareEnd stdCompare (storeRecords uicr₁ cutFlash) cutFlash cutHeader)
    (by decide) (by decide)
  obtain ⟨t, b', ht, ht', h⟩ := writePass_cut (hinfo.trans (hdone hhung).1.suInfo)
    (hhung'.trans hhung) hblank hrecords b
  rw [if_neg (by simp [hhung]), if_neg hnot, erasePages_setBuf] at hb
  exact ⟨t, b', ht, ht', hb.trans h⟩

/-- `Main` gets to the end, and leaves the last chunk erased. -/
theorem main_cut : (main stdCompare uicr₁ cutFlash).hung = false ∧
    (main stdCompare uicr₁ cutFlash).flash 0x2000 = 0xff#8 := by
  obtain ⟨s, b, hhung, hflash, h⟩ := main_eq_mostOf
  have hend := runRecords_std_hung mostOf hhung
  have hblank := runRecords_mostOf hflash
  rw [h]
  generalize runRecords stdCompare mostOf s = t at *
  exact ⟨hend, hblank⟩

/-- All chunks in the store are zero. -/
theorem data_cut {d : SuData} (hd : .chunk d ∈ storeRecords uicr₁ cutFlash) :
    d.data = List.replicate 64 0#8 := by
  rw [storeRecords_cut] at hd
  simp only [mostOf, List.cons_append, List.nil_append, List.mem_cons, reduceCtorEq,
    List.mem_append, mem_chunksFrom, StoreRecord.chunk.injEq, List.not_mem_nil, or_false,
    false_or] at hd
  rcases hd with ⟨i, -, rfl⟩ | rfl <;> rfl

/-- **A store inside a flash page is erased in part**, and the update stays
incomplete. -/
theorem not_converges :
    PastSearch stdCompare uicr₁ cutFlash ∧
      (selected stdCompare uicr₁ cutFlash).stop.toNat < mapEnd ∧
      (selected stdCompare uicr₁ cutFlash).stop.toNat ≤ uicr₁.storeStart.toNat ∧
      SameData (storeRecords uicr₁ cutFlash) (selected stdCompare uicr₁ cutFlash) ∧
      (main stdCompare uicr₁ cutFlash).hung = false ∧
      ∃ d, ChunkAt (storeRecords uicr₁ cutFlash) (selected stdCompare uicr₁ cutFlash) d 0x2000 ∧
        (main stdCompare uicr₁ cutFlash).flash 0x2000 ≠ d.data.getD
          (0x2000 - d.address.toNat) 0#8 := by
  have hrs : storeRecords uicr₁ cutFlash = [] ++ .info cutHeader :: cutRest := storeRecords_cut
  have ha := cut_applies
  have hw := storeRecords_wellFormed uicr₁ cutFlash
  have hmem : StoreRecord.chunk lastChunk ∈ storeRecords uicr₁ cutFlash :=
    by simp [storeRecords_cut]
  refine ⟨pastSearch_iff.2 ⟨by decide, [], _, _, hrs, ha⟩, ?_⟩
  rw [selected_eq hrs ha.selects]
  obtain ⟨h₁, h₂⟩ := main_cut
  refine ⟨by decide, by decide, ?_, h₁, lastChunk, ⟨hmem, by decide, by decide, by decide⟩, ?_⟩
  · intro d d' hd hd' _ _ _
    rw [data_cut hd, data_cut hd']
  · rw [h₂]
    decide

end Unaligned

end Loader

end AntTracer
