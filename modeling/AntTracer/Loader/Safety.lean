import AntTracer.Loader.Idempotent

/-!
# What the loader writes over

No flash operation of the loader should touch the store, or what lies above
it. The bounds that are tested do not say so: a header may end as high as
`0x80000`, the write pass writes every chunk in its range, and the erase loop
erases a page that begins below the store but reaches into it.
`store_safe_iff` says exactly when the store stays as it is.
-/

namespace AntTracer

namespace Loader

variable {u : UICR} {flash : ℕ → Byte} {h : SuInfo} {rs pre post : List StoreRecord}
variable {ram : ℕ → List Byte} {S : ℕ}

/-- The flash page of this address begins below `S` and ends beyond it. -/
def Straddles (S a : ℕ) : Prop :=
  a / flashPage * flashPage < S ∧ S < a / flashPage * flashPage + flashPage

/-- The chunk and, as far as it may be erased, its page end below the store. -/
def Clear (S : ℕ) (d : SuData) : Prop :=
  d.address.toNat + oqSuChunk ≤ S ∧ (d.address.toNat < mapEnd → ¬ Straddles S d.address.toNat)

/-- The chunk is the last one of flash, and in flash already. -/
def LastOfFlash (flash : ℕ → Byte) (d : SuData) : Prop :=
  d.address.toNat + oqSuChunk = flashSize ∧ flashBytes flash d.address.toNat oqSuChunk = d.data

/-- What is known of the chunks of the update. -/
theorem accepted_bounds (hsane : ¬ Insane h) (hw : ∀ r ∈ rs, r.WellFormed) {d : SuData}
    (hd : d ∈ accepted h rs) : 0x1000 ≤ d.address.toNat ∧
      d.address.toNat + oqSuChunk ≤ flashSize ∧ d.address.toNat % oqSuChunk = 0 ∧
      d.data.length = oqSuChunk := by
  obtain ⟨hmem, hf⟩ := mem_accepted.1 hd
  obtain ⟨h₁, h₂, h₃⟩ := hw _ hmem
  have hs := not_insane_iff.1 hsane
  have := (not_foreign_iff h₂).1 hf
  refine ⟨by omega, ?_, h₁, h₃⟩
  simp only [oqSuChunk, flashSize, flashPages, flashPage]
  omega

theorem UICR.start_le (hbad : ¬ u.Bad) : u.storeStart.toNat ≤ 0x7f000 := by
  by_contra hlt
  refine hbad (Or.inl (Or.inr ?_))
  simp only [GT.gt, BitVec.lt_def, BitVec.toNat_ofNat]
  omega

/-! ## When nothing reaches the store -/

theorem State.Undamaged.perform_program {s : State} (hs : s.Undamaged S) {d : SuData}
    (hd : d.address.toNat + oqSuChunk ≤ S) (hlen : d.data.length = oqSuChunk) {s' : State}
    (hops : s'.ops = s.ops ++ [.program d.address.toNat d.data]) : s'.Undamaged S := by
  intro o ho a ha
  rw [hops] at ho
  rcases List.mem_append.1 ho with ho | ho
  · exact hs o ho a ha
  · obtain rfl := List.mem_singleton.1 ho
    simp only [FlashOp.Touches, hlen] at ha
    omega

/-- The run over the records stands for `Main` as far as the store goes. -/
theorem main_undamaged_iff (m : Comparator) : (main m u flash).Undamaged u.storeStart.toNat ↔
    (mainRecords m (storeRecords u flash) u flash).Undamaged u.storeStart.toNat := by
  rcases main_refines m u flash with ⟨h₁, b, hb⟩ | ⟨h₁, h₂⟩
  · rw [hb]
    exact Iff.rfl
  · exact ⟨fun h => absurd h h₂, fun h => absurd h h₁⟩

/-- The search pass and the compare pass perform no operation. -/
theorem undamaged_compareEnd {m : Comparator} (flash : ℕ → Byte) (hrs : rs = pre ++ .info h :: post)
    (ha : Applies pre h post) (hw : ∀ r ∈ rs, r.WellFormed) (S : ℕ) :
    (compareEnd m rs flash h).Undamaged S := by
  intro o ho
  simp [(compareEnd_spec (m := m) flash hrs ha.selects hw).2.1] at ho

/-- Nor is there one without an update to apply. -/
theorem undamaged_of_not_pastSearch {m : Comparator} (hpast : ¬ PastSearch m u flash) :
    (mainRecords m (storeRecords u flash) u flash).Undamaged u.storeStart.toNat := by
  rw [mainRecords, mainWith]
  by_cases hbad : u.Bad
  · rw [if_pos hbad]
    exact boot_undamaged flash
  · have hfails : (searchPass (runRecords m (storeRecords u flash))
        (State.boot flash)).SearchFails := by
      by_contra hno
      obtain ⟨b, hb⟩ := searchPass_eq m u flash
      exact hpast ⟨hbad, by rw [hb]; exact hno⟩
    rw [if_neg hbad]
    simp only [if_pos hfails]
    exact (undamaged_of_ops (searchPass_ops _)).2 (boot_undamaged flash)

/-- **The store stays as it is** while every chunk is clear of it. -/
theorem undamaged_of_clear {m : Comparator} (flash : ℕ → Byte) (hbad : ¬ u.Bad)
    (hrs : rs = pre ++ .info h :: post)
    (ha : Applies pre h post) (hw : ∀ r ∈ rs, r.WellFormed)
    (hclear : ∀ d ∈ accepted h rs, Clear u.storeStart.toNat d) :
    (mainRecords m rs u flash).Undamaged u.storeStart.toNat := by
  have hS := UICR.start_le hbad
  obtain ⟨-, hops, -, hdone⟩ := compareEnd_spec (m := m) flash hrs ha.selects hw
  have hnone := undamaged_compareEnd (m := m) flash hrs ha hw u.storeStart.toNat
  rw [mainRecords_past hbad hrs ha hw]
  split
  · exact hnone
  rename_i hhung
  split
  · exact hnone
  obtain ⟨hcmp, -, hpages, -⟩ := hdone (by simpa using hhung)
  obtain ⟨-, ⟨ops, hops', htouch⟩, hinfo, hhung', -⟩ :=
    erasePages_spec (S := u.storeStart.toNat) flashPages flashPage (compareEnd m rs flash h)
      (by decide) (by simp only [flashPages, flashPage]; omega)
  have hd : ∀ d ∈ accepted h rs, ¬ Foreign h d := fun d hd => (mem_accepted.1 hd).2
  refine Writing.visitAll_inv (P := State.Undamaged u.storeStart.toNat) hd
    (fun d hmem s hs hu => ?_) (s := { erasePages u.storeStart.toNat flashPages flashPage
      (compareEnd m rs flash h) with op := .write })
    ⟨rfl, hinfo.trans hcmp.suInfo, hhung'.trans hcmp.hung⟩ ?_
  · have hlen := (accepted_bounds ha.selects.sane hw hmem).2.2.2
    rcases hs.visit (m := m) (hd d hmem) with ⟨-, -, -, h₁⟩ | ⟨-, -, ⟨-, -, h₁⟩ | ⟨r, -, -, -, h₁⟩⟩
    · exact (undamaged_of_ops h₁).2 hu
    · exact (undamaged_of_ops h₁).2 hu
    · exact hu.perform_program (hclear d hmem).1 hlen h₁
  · -- an erased page is that of a chunk
    intro o ho a ht
    change o ∈ (erasePages u.storeStart.toNat flashPages flashPage
      (compareEnd m rs flash h)).ops at ho
    rw [hops', hops, List.nil_append] at ho
    obtain ⟨-, hlt, hset⟩ := (htouch a).1 ⟨o, ho, ht⟩
    by_cases hp : a / flashPage < 64
    · obtain ⟨i, d, hi, -, hpage⟩ := (hpages _ hp).1 hset
      have hno := (hclear d (List.mem_of_getElem? hi)).2
        (by simp only [mapEnd, flashPage] at *; omega)
      simp only [Straddles, hpage, flashPage] at *
      omega
    · obtain ⟨-, hstop, -⟩ := pages_range hcmp.shape
      rw [mapIsSet_of_ge (by simp only [mapEnd, flashPage] at *; omega)] at hset
      cases hset

/-! ## When something does -/

theorem differs_of_ne {l r : List Byte} (hlen : l.length = r.length) (hne : l ≠ r) :
    Differs l r := by
  by_contra hno
  refine hne (List.ext_getElem hlen fun i h₁ h₂ => ?_)
  by_contra hc
  exact hno ⟨i, l[i], r[i], List.getElem?_eq_getElem h₁, List.getElem?_eq_getElem h₂, hc⟩

theorem Differs.append {l r : List Byte} (hd : Differs l r) (l' r' : List Byte) :
    Differs (l ++ l') (r ++ r') := by
  obtain ⟨j, x, y, h₁, h₂, hne⟩ := hd
  have hl := (List.getElem?_eq_some_iff.1 h₁).1
  have hr := (List.getElem?_eq_some_iff.1 h₂).1
  exact ⟨j, x, y, by rwa [List.getElem?_append_left hl], by rwa [List.getElem?_append_left hr], hne⟩

theorem getElem?_flashBytes {a n j : ℕ} (hj : j < n) :
    (flashBytes flash a n)[j]? = some (flash (a + j)) := by
  simp [flashBytes, hj]

/-- RAM that lets every comparison return: behind each chunk it differs from
what flash has there. -/
def tellingRam (flash : ℕ → Byte) (ds : List SuData) (i : ℕ) : List Byte :=
  (ds[i % ds.length]?).elim [] fun d =>
    (List.range flashSize).map fun j => flash (d.address.toNat + oqSuChunk + j) + 1#8

theorem getElem?_tellingRam {ds : List SuData} {i j : ℕ} {d : SuData}
    (hi : ds[i % ds.length]? = some d) (hj : j < flashSize) :
    (tellingRam flash ds i)[j]? = some (flash (d.address.toNat + oqSuChunk + j) + 1#8) := by
  have hget : ∀ (n : ℕ) (f : ℕ → Byte), j < n → ((List.range n).map f)[j]? = some (f j) :=
    fun n f hn => by simp [hn]
  rw [tellingRam, hi, Option.elim_some]
  exact hget _ _ hj

theorem add_one_ne (x : Byte) : x + 1#8 ≠ x := by bv_omega

/-- With that RAM every comparison returns for as long as the store is
intact. -/
theorem tellingRam_returns {flash' : ℕ → Byte} {ds : List SuData} {i : ℕ} {d : SuData}
    (hi : ds[i % ds.length]? = some d) (hend : d.address.toNat + oqSuChunk ≤ flashSize)
    (hlen : d.data.length = oqSuChunk) (hS : S ≤ 0x7f000) (hlast : ¬ LastOfFlash flash d)
    (hintact : ∀ a, S ≤ a → flash' a = flash a) :
    loaderMemcmp (tellingRam flash ds) i d flash' ≠ none := by
  rw [loaderMemcmp, memcmp_ne_none_iff (by decide)]
  -- where RAM meets a byte of flash that is intact
  have hmeet : ∀ j, S ≤ d.address.toNat + oqSuChunk + j →
    d.address.toNat + oqSuChunk + j < flashSize →
      Differs (d.data ++ tellingRam flash ds i)
        (flashBytes flash' d.address.toNat (flashSize - d.address.toNat)) := by
    intro j h₁ h₂
    refine ⟨oqSuChunk + j, flash (d.address.toNat + oqSuChunk + j) + 1#8, _, ?_,
      getElem?_flashBytes (by omega), ?_⟩
    · rw [List.getElem?_append_right (by omega), hlen, Nat.add_sub_cancel_left]
      exact getElem?_tellingRam hi (by omega)
    · rw [← Nat.add_assoc, hintact _ h₁]
      exact add_one_ne _
  have hsize : flashSize = 0x80000 := rfl
  by_cases h₁ : d.address.toNat + oqSuChunk ≤ S
  · exact hmeet (S - (d.address.toNat + oqSuChunk)) (by omega) (by omega)
  by_cases h₂ : d.address.toNat + oqSuChunk < flashSize
  · exact hmeet 0 (by omega) (by omega)
  · -- the last chunk of flash: it differs itself
    have hchunk : oqSuChunk = 64 := rfl
    have heq : flashBytes flash' d.address.toNat oqSuChunk =
        flashBytes flash d.address.toNat oqSuChunk := by
      refine List.map_congr_left fun j hj => hintact _ ?_
      omega
    have hne : d.data ≠ flashBytes flash' d.address.toNat oqSuChunk := fun h' =>
      hlast ⟨by omega, by rw [← heq, ← h']⟩
    have := differs_of_ne (by simp [hlen, flashBytes]) hne
    rw [show flashSize - d.address.toNat = oqSuChunk + 0 by omega, flashBytes_append]
    exact this.append _ _

theorem visitAll_damaged {m : Comparator} (ds : List SuData) {s : State} (hs : ¬ s.Undamaged S) :
    ¬ (visitAll m ds s).Undamaged S := by
  rw [visitAll_eq_runRecords]
  exact runRecords_inv (P := fun s => ¬ s.Undamaged S) _
    (fun r _ _ hs => damaged_callback hs r) s hs

/-- The write pass comes to the chunk that reaches into the store, and writes
it. -/
theorem write_damages {ds : List SuData} (hS : S ≤ 0x7f000)
    (hbnd : ∀ d ∈ ds, d.address.toNat + oqSuChunk ≤ flashSize ∧ d.data.length = oqSuChunk)
    (hlast : ∀ d ∈ ds, ¬ LastOfFlash flash d) (hf : ∀ d ∈ ds, ¬ Foreign h d) (todo : List SuData) :
    ∀ (done : List SuData) (s : State), ds = done ++ todo → Writing h s →
      s.compares = ds.length + done.length → s.Intact S flash →
      (∃ d ∈ todo, S < d.address.toNat + oqSuChunk) →
      ¬ (visitAll (loaderMemcmp (tellingRam flash ds)) todo s).Undamaged S := by
  induction todo with
  | nil =>
    rintro _ _ _ _ _ _ ⟨d, hd, -⟩
    cases hd
  | cons d todo ih =>
    intro done s hds hs hcount hintact hex
    by_cases hu : s.Undamaged S
    swap
    · exact visitAll_damaged _ hu
    have hmem : d ∈ ds := by simp [hds]
    have hi : ds[s.compares % ds.length]? = some d := by
      have hlt : done.length < ds.length := by simp [hds]
      rw [hcount, Nat.add_mod_left, Nat.mod_eq_of_lt hlt, hds]
      simp
    have hreturn := tellingRam_returns hi (hbnd d hmem).1 (hbnd d hmem).2 hS (hlast d hmem)
      (hintact hu)
    rw [visitAll_cons]
    rcases hs.visit (m := loaderMemcmp (tellingRam flash ds)) (hf d hmem) with
      ⟨hnone, -⟩ | ⟨hnext, hnext', ⟨hz, -⟩ | ⟨r, -, -, hflash, hops⟩⟩
    · exact absurd hnone hreturn
    · exact absurd hz (loaderMemcmp_ne_zero _ _ _)
    · by_cases hreach : S < d.address.toNat + oqSuChunk
      · refine visitAll_damaged _ fun hu' => ?_
        have hchunk : oqSuChunk = 64 := rfl
        have hlen := (hbnd d hmem).2
        have := hu' (.program d.address.toNat d.data) (by simp [hops])
          (d.address.toNat + oqSuChunk - 1) ⟨by omega, by omega⟩
        omega
      · obtain ⟨d', hd', hlt⟩ := hex
        refine ih (done ++ [d]) _ (by simp [hds]) hnext ?_ (intact_callback hintact _) ⟨d', ?_, hlt⟩
        · rw [hnext', hcount, List.length_append, List.length_singleton, Nat.add_assoc]
        · rcases List.mem_cons.1 hd' with rfl | hd'
          · exact absurd hlt hreach
          · exact hd'

/-- **Something reaches the store** when every comparison can return, some
chunk is marked, and one is not clear of the store. -/
theorem damaged_of_not_clear (flash : ℕ → Byte) (hbad : ¬ u.Bad) (hrs : rs = pre ++ .info h :: post)
    (ha : Applies pre h post) (hw : ∀ r ∈ rs, r.WellFormed)
    (hlast : ∀ d ∈ accepted h rs, ¬ LastOfFlash flash d)
    (hmap : ∃ d ∈ accepted h rs, d.address.toNat < mapEnd)
    (hreach : ∃ d ∈ accepted h rs, ¬ Clear u.storeStart.toNat d) :
    ¬ (mainRecords (loaderMemcmp (tellingRam flash (accepted h rs))) rs u flash).Undamaged
      u.storeStart.toNat := by
  have hS := UICR.start_le hbad
  have hbnd : ∀ d ∈ accepted h rs, d.address.toNat + oqSuChunk ≤ flashSize ∧
      d.data.length = oqSuChunk := fun d hd =>
    ⟨(accepted_bounds ha.selects.sane hw hd).2.1, (accepted_bounds ha.selects.sane hw hd).2.2.2⟩
  have hd : ∀ d ∈ accepted h rs, ¬ Foreign h d := fun d hd => (mem_accepted.1 hd).2
  generalize hcmp : loaderMemcmp (tellingRam flash (accepted h rs)) = m
  obtain ⟨hflash, hops, hreturn, hdone⟩ := compareEnd_spec (m := m) flash hrs ha.selects hw
  have hhung : (compareEnd m rs flash h).hung = false := by
    refine hreturn.2 fun i d hi => ?_
    have hlt := (List.getElem?_eq_some_iff.1 hi).1
    have hmem := List.mem_of_getElem? hi
    rw [← hcmp]
    exact tellingRam_returns (by rwa [Nat.mod_eq_of_lt hlt]) (hbnd d hmem).1 (hbnd d hmem).2 hS
      (hlast d hmem) fun _ _ => rfl
  obtain ⟨hcomparing, hcount, hpages, hclearAll⟩ := hdone hhung
  have hnotclear : ¬ mapIsClearAll (compareEnd m rs flash h).pages = true := by
    intro hc
    obtain ⟨d, hmem, hlt⟩ := hmap
    obtain ⟨i, hi⟩ := List.getElem?_of_mem hmem
    have := hclearAll.1 hc i d hi hlt
    rw [← hcmp] at this
    exact loaderMemcmp_ne_zero _ _ _ this
  rw [mainRecords_past hbad hrs ha hw, if_neg (by simp [hhung]), if_neg hnotclear]
  obtain ⟨-, ⟨ops, hops', htouch⟩, hinfo, hhung', hcompares⟩ :=
    erasePages_spec (S := u.storeStart.toNat) flashPages flashPage (compareEnd m rs flash h)
      (by decide) (by simp only [flashPages, flashPage]; omega)
  obtain ⟨d, hmem, hnot⟩ := hreach
  by_cases hstraddle : d.address.toNat < mapEnd ∧ Straddles u.storeStart.toNat d.address.toNat
  · -- its page is erased
    refine visitAll_damaged _ fun hu => ?_
    obtain ⟨hlt, h₁, h₂⟩ := hstraddle
    obtain ⟨i, hi⟩ := List.getElem?_of_mem hmem
    have hset := (hpages (d.address.toNat / flashPage)
      (by simp only [mapEnd, flashPage] at *; omega)).2
      ⟨i, d, hi, by rw [← hcmp]; exact loaderMemcmp_ne_zero _ _ _, rfl⟩
    have hpos := (accepted_bounds ha.selects.sane hw hmem).1
    have hpage : u.storeStart.toNat / flashPage = d.address.toNat / flashPage := by
      simp only [flashPage] at *
      omega
    obtain ⟨o, ho, ht⟩ := (htouch u.storeStart.toNat).2 ⟨by simp only [flashPage] at *; omega,
      by rwa [hpage], by rwa [hpage]⟩
    have := hu o (by
      change o ∈ (erasePages u.storeStart.toNat flashPages flashPage (compareEnd m rs flash h)).ops
      rw [hops']
      exact List.mem_append_right _ ho) _ ht
    omega
  · -- it is written
    have hlt : u.storeStart.toNat < d.address.toNat + oqSuChunk := by
      by_contra hle
      exact hnot ⟨by omega, fun h' hs => hstraddle ⟨h', hs⟩⟩
    have hintact : (erasePages u.storeStart.toNat flashPages flashPage
        (compareEnd m rs flash h)).Intact u.storeStart.toNat flash :=
      erasePages_inv (fun s pg h => h.perform (.erase pg)) _ _ _ fun _ a _ => by rw [hflash]
    rw [← hcmp] at *
    refine write_damages hS hbnd hlast hd (accepted h rs) [] _ rfl ?_ ?_ hintact ⟨d, hmem, hlt⟩
    · exact ⟨rfl, hinfo.trans hcomparing.suInfo, hhung'.trans hhung⟩
    · exact hcompares.trans hcount

/-! ## Exactly when -/

/-- The last chunk of flash, once it is there, keeps `memcmp` from returning:
there is nothing behind it. -/
theorem loaderMemcmp_lastOfFlash {i : ℕ} {d : SuData} (hlast : LastOfFlash flash d) :
    loaderMemcmp ram i d flash = none := by
  obtain ⟨hend, heq⟩ := hlast
  by_contra hc
  obtain ⟨j, x, y, -, hy, -⟩ := (loaderMemcmp_applied (by omega) heq).1 hc
  rw [hend, Nat.sub_self] at hy
  cases hy

/-- **The store is safe**, whatever lies in RAM, exactly when `Main` gives up,
or the compare pass cannot return, or marks no page, or every chunk of the
update is clear of the store. -/
theorem store_safe_iff :
    (∀ ram, (main (loaderMemcmp ram) u flash).Undamaged u.storeStart.toNat) ↔
      u.Bad ∨ ∀ pre h post, storeRecords u flash = pre ++ .info h :: post → Applies pre h post →
        (∃ d ∈ accepted h (storeRecords u flash), LastOfFlash flash d) ∨
        (∀ d ∈ accepted h (storeRecords u flash), mapEnd ≤ d.address.toNat) ∨
        (∀ d ∈ accepted h (storeRecords u flash), Clear u.storeStart.toNat d) := by
  have hw := storeRecords_wellFormed u flash
  simp only [main_undamaged_iff]
  constructor
  · intro hsafe
    by_cases hbad : u.Bad
    · exact Or.inl hbad
    refine Or.inr fun pre h post hrs ha => ?_
    by_contra hc
    simp only [not_or] at hc
    obtain ⟨h₁, h₂, h₃⟩ := hc
    push Not at h₁ h₂ h₃
    exact damaged_of_not_clear flash hbad hrs ha hw h₁ h₂ h₃ (hsafe _)
  · intro hall ram
    by_cases hpast : PastSearch (loaderMemcmp ram) u flash
    swap
    · exact undamaged_of_not_pastSearch hpast
    obtain ⟨hbad, pre, h, post, hrs, ha⟩ := pastSearch_iff.1 hpast
    obtain ⟨-, -, hreturn, hdone⟩ :=
      compareEnd_spec (m := loaderMemcmp ram) flash hrs ha.selects hw
    have hnone := undamaged_compareEnd (m := loaderMemcmp ram) flash hrs ha hw u.storeStart.toNat
    rcases hall.resolve_left hbad pre h post hrs ha with ⟨d, hmem, hlast⟩ | hhigh | hclear
    · have hhung : (compareEnd (loaderMemcmp ram) (storeRecords u flash) flash h).hung = true := by
        by_contra hno
        obtain ⟨i, hi⟩ := List.getElem?_of_mem hmem
        exact hreturn.1 (by simpa using hno) i d hi (loaderMemcmp_lastOfFlash hlast)
      rw [mainRecords_past hbad hrs ha hw, if_pos hhung]
      exact hnone
    · rw [mainRecords_past hbad hrs ha hw]
      by_cases hhung : (compareEnd (loaderMemcmp ram) (storeRecords u flash) flash h).hung = true
      · rw [if_pos hhung]
        exact hnone
      · have hc := (hdone (by simpa using hhung)).2.2.2.2 fun i d hi hlt => by
          have := hhigh d (List.mem_of_getElem? hi)
          omega
        rw [if_neg hhung, if_pos hc]
        exact hnone
    · exact undamaged_of_clear flash hbad hrs ha hw hclear

/-- A header whose range begins below the store and ends in it, a chunk on
either side, and the execute record. -/
def crossing : List StoreRecord :=
  [.info ⟨1#32, 5#32, 0x3f000#32, 0x41000#32⟩,
    .chunk ⟨1#32, 0x3f000#32, List.replicate 64 0#8⟩,
    .chunk ⟨1#32, 0x40000#32, List.replicate 64 0#8⟩, .exec ⟨1#32, 5#32⟩]

/-- A flash with these records in the store. -/
def crossingFlash : ℕ → Byte := storeOf 0x40000 62 0 crossing fun _ => 0xff#8

theorem storeRecords_crossing : storeRecords uicr₂ crossingFlash = crossing :=
  storeRecords_storeOf uicr₂_paged (by simp [crossing]) (by simp [crossing]) (by decide) (by
    intro r hr
    simp only [crossing, List.mem_cons, List.not_mem_nil, or_false] at hr
    rcases hr with rfl | rfl | rfl | rfl
    · exact ⟨by decide, by decide, by decide, by decide, by decide⟩
    · exact ⟨by decide, by decide, by decide, by simp⟩
    · exact ⟨by decide, by decide, by decide, by simp⟩
    · exact ⟨by decide⟩)

/-- **The write pass writes into the store.** -/
theorem not_store_safe :
    ¬ ∀ ram, (main (loaderMemcmp ram) uicr₂ crossingFlash).Undamaged uicr₂.storeStart.toNat := by
  intro hall
  have hrs : storeRecords uicr₂ crossingFlash = [] ++ .info ⟨1#32, 5#32, 0x3f000#32, 0x41000#32⟩ ::
      [.chunk ⟨1#32, 0x3f000#32, List.replicate 64 0#8⟩,
        .chunk ⟨1#32, 0x40000#32, List.replicate 64 0#8⟩, .exec ⟨1#32, 5#32⟩] :=
          storeRecords_crossing
  have ha : Applies [] ⟨1#32, 5#32, 0x3f000#32, 0x41000#32⟩
      [.chunk ⟨1#32, 0x3f000#32, List.replicate 64 0#8⟩,
        .chunk ⟨1#32, 0x40000#32, List.replicate 64 0#8⟩, .exec ⟨1#32, 5#32⟩] :=
    ⟨⟨by decide, by decide, by simp, by simp⟩, fun h => absurd h (by decide), by decide⟩
  have hmem : ∀ d, d ∈ accepted ⟨1#32, 5#32, 0x3f000#32, 0x41000#32⟩
    (storeRecords uicr₂ crossingFlash) ↔
      d = ⟨1#32, 0x3f000#32, List.replicate 64 0#8⟩ ∨
        d = ⟨1#32, 0x40000#32, List.replicate 64 0#8⟩ := by
    intro d
    rw [mem_accepted, hrs]
    simp only [List.nil_append, List.mem_cons, reduceCtorEq, StoreRecord.chunk.injEq,
      List.not_mem_nil, or_false, false_or]
    refine ⟨fun h => h.1, ?_⟩
    rintro (rfl | rfl)
    · exact ⟨Or.inl rfl, by decide⟩
    · exact ⟨Or.inr rfl, by decide⟩
  have hwell := storeRecords_wellFormed uicr₂ crossingFlash
  have hdamage := damaged_of_not_clear crossingFlash (by decide : ¬ uicr₂.Bad) hrs ha hwell
    (fun d hd hlast => by
      rcases (hmem d).1 hd with rfl | rfl
      · exact absurd hlast.1 (by decide)
      · exact absurd hlast.1 (by decide))
    ⟨_, (hmem _).2 (Or.inl rfl), by decide⟩
    ⟨_, (hmem _).2 (Or.inr rfl), fun h => absurd h.1 (by decide)⟩
  exact hdamage ((main_undamaged_iff _).1 (hall _))

end Loader

end AntTracer
