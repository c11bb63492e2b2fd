import AntTracer.Loader.Presence
import AntTracer.Loader.Passes

/-!
# Applying an update again

An update that is in flash already should be left alone. It is not, because
the loader's `memcmp` does not advance its index: it never finds two ranges
equal, but goes on behind the chunk until it meets a byte that differs, or
runs off memory (`memcmp_ne_zero`, `memcmp_ne_none_iff`). Only what the map of
the pages does not cover is left alone (`quiet_iff`).
-/

namespace AntTracer

namespace Loader

/-! ## The loop of `memcmp` -/

/-- The two ranges differ before either ends. -/
def Differs (l r : List Byte) : Prop :=
  ∃ (j : ℕ) (x y : Byte), l[j]? = some x ∧ r[j]? = some y ∧ x ≠ y

theorem differs_cons {x y : Byte} {l r : List Byte} :
    Differs (x :: l) (y :: r) ↔ x ≠ y ∨ Differs l r := by
  constructor
  · rintro ⟨j, a, b, h₁, h₂, hne⟩
    cases j with
    | zero =>
      cases h₁
      cases h₂
      exact Or.inl hne
    | succ j => exact Or.inr ⟨j, a, b, h₁, h₂, hne⟩
  · rintro (hne | ⟨j, a, b, h₁, h₂, hne⟩)
    · exact ⟨0, x, y, rfl, rfl, hne⟩
    · exact ⟨j + 1, a, b, h₁, h₂, hne⟩

theorem differs_append (d l r : List Byte) : Differs (d ++ l) (d ++ r) ↔ Differs l r := by
  induction d with
  | nil => rfl
  | cons x d ih => rw [List.cons_append, List.cons_append, differs_cons, ih]; simp

/-- **The loader's `memcmp` never says that two ranges are equal.** -/
theorem memcmp_ne_zero {len : ℕ} (hlen : 0 < len) (l : List Byte) : ∀ r : List Byte,
    memcmp l r len ≠ some 0 := by
  induction l with
  | nil =>
    intro r
    cases r <;> simp [memcmp, memcmpFrom, hlen]
  | cons x l ih =>
    intro r
    cases r with
    | nil => simp [memcmp, memcmpFrom, hlen]
    | cons y r =>
      simp only [memcmp, memcmpFrom, if_pos hlen]
      split_ifs
      · simp
      · simp
      · exact ih r

/-- **It returns when the ranges differ**, however far behind their end. -/
theorem memcmp_ne_none_iff {len : ℕ} (hlen : 0 < len) (l : List Byte) : ∀ r : List Byte,
    memcmp l r len ≠ none ↔ Differs l r := by
  induction l with
  | nil =>
    intro r
    cases r <;> simp [memcmp, memcmpFrom, hlen, Differs]
  | cons x l ih =>
    intro r
    cases r with
    | nil => simp [memcmp, memcmpFrom, hlen, Differs]
    | cons y r =>
      rw [differs_cons, ← ih r]
      simp only [memcmp, memcmpFrom, if_pos hlen]
      by_cases h₁ : x < y
      · simp [h₁, BitVec.ne_of_lt h₁]
      by_cases h₂ : x > y
      · simp [h₁, h₂, (BitVec.ne_of_lt h₂).symm]
      · have heq : x = y := by
          simp only [BitVec.not_lt, GT.gt] at h₁ h₂
          exact BitVec.le_antisymm h₂ h₁
        simp [heq]

theorem flashBytes_append (flash : ℕ → Byte) (a m n : ℕ) :
    flashBytes flash a (m + n) = flashBytes flash a m ++ flashBytes flash (a + m) n := by
  simp only [flashBytes, List.range_add, List.map_append, List.map_map, Function.comp_def,
    Nat.add_assoc]

section Quiet

variable {u : UICR} {flash : ℕ → Byte} {h : SuInfo} {rs pre post : List StoreRecord}
variable {ram : ℕ → List Byte}

theorem loaderMemcmp_ne_zero (i : ℕ) (d : SuData) (flash : ℕ → Byte) :
    loaderMemcmp ram i d flash ≠ some 0 := memcmp_ne_zero (by decide) _ _

/-- A chunk that is in flash already is told apart by what lies behind. -/
theorem loaderMemcmp_applied {i : ℕ} {d : SuData} (hend : d.address.toNat + oqSuChunk ≤ flashSize)
    (heq : flashBytes flash d.address.toNat oqSuChunk = d.data) :
    loaderMemcmp ram i d flash ≠ none ↔ Differs (ram i)
      (flashBytes flash (d.address.toNat + oqSuChunk)
        (flashSize - (d.address.toNat + oqSuChunk))) := by
  rw [loaderMemcmp, memcmp_ne_none_iff (by decide), show flashSize - d.address.toNat =
    oqSuChunk + (flashSize - (d.address.toNat + oqSuChunk)) by omega, flashBytes_append, heq,
    differs_append]

/-- Operations are not taken back. -/
theorem visitAll_ops_ne_nil {m : Comparator} {s : State} (ds : List SuData) (hs : s.ops ≠ []) :
    (visitAll m ds s).ops ≠ [] := by
  rw [visitAll_eq_runRecords]
  refine runRecords_inv (P := fun s => s.ops ≠ []) _ (fun r _ s hs => ?_) s hs
  rcases callback_flash (m := m) r s with ⟨-, h⟩ | ⟨d, -, -, -, -, h⟩
  · rwa [h]
  · simp [h]

/-- With the loader's `memcmp` the first chunk of the write pass is written,
or the pass does not return. -/
theorem visitAll_write_not_quiet (ram : ℕ → List Byte) {s : State} (hs : Writing h s)
    {ds : List SuData} (hne : ds ≠ [])
    (hd : ∀ d ∈ ds, ¬ Foreign h d) :
    (visitAll (loaderMemcmp ram) ds s).hung = true ∨
    (visitAll (loaderMemcmp ram) ds s).ops ≠ [] := by
  cases ds with
  | nil => exact absurd rfl hne
  | cons d ds =>
    rw [visitAll_cons]
    rcases hs.visit (m := loaderMemcmp ram) (hd d (List.mem_cons_self ..)) with
      ⟨-, hhung, -⟩ | ⟨-, -, ⟨hz, -⟩ | ⟨r, -, -, -, hops⟩⟩
    · exact Or.inl (by rwa [visitAll_of_hung ds hhung])
    · exact absurd hz (loaderMemcmp_ne_zero _ _ _)
    · exact Or.inr (visitAll_ops_ne_nil ds (by simp [hops]))

/-- **When `Main` leaves flash alone**: every comparison returns, and no chunk
of the update lies in what the map of the pages covers. -/
theorem mainRecords_quiet_iff (hbad : ¬ u.Bad) (hrs : rs = pre ++ .info h :: post)
    (ha : Applies pre h post) (hw : ∀ r ∈ rs, r.WellFormed) :
    ((mainRecords (loaderMemcmp ram) rs u flash).hung = false ∧
        (mainRecords (loaderMemcmp ram) rs u flash).ops = []) ↔
      (∀ i d, (accepted h rs)[i]? = some d → loaderMemcmp ram i d flash ≠ none) ∧
        ∀ d ∈ accepted h rs, mapEnd ≤ d.address.toNat := by
  rw [mainRecords_past hbad hrs ha hw]
  obtain ⟨-, hops, hreturn, hdone⟩ :=
    compareEnd_spec (m := loaderMemcmp ram) flash hrs ha.selects hw
  have hd : ∀ d ∈ accepted h rs, ¬ Foreign h d := fun d hd => (mem_accepted.1 hd).2
  by_cases hhung : (compareEnd (loaderMemcmp ram) rs flash h).hung = true
  · rw [if_pos hhung]
    constructor
    · rintro ⟨h', -⟩
      rw [hhung] at h'
      cases h'
    · rintro ⟨hall, -⟩
      have := hreturn.2 hall
      rw [hhung] at this
      cases this
  have hhung' : (compareEnd (loaderMemcmp ram) rs flash h).hung = false := by simpa using hhung
  obtain ⟨hcmp, -, -, hclear⟩ := hdone hhung'
  have hclear' : mapIsClearAll (compareEnd (loaderMemcmp ram) rs flash h).pages = true ↔
      ∀ d ∈ accepted h rs, mapEnd ≤ d.address.toNat := by
    rw [hclear]
    constructor
    · intro hall d hmem
      obtain ⟨i, hi⟩ := List.getElem?_of_mem hmem
      by_contra hlt
      exact loaderMemcmp_ne_zero _ _ _ (hall i d hi (by omega))
    · intro hall i d hi hlt
      have := hall d (List.mem_of_getElem? hi)
      omega
  rw [if_neg hhung]
  by_cases hc : mapIsClearAll (compareEnd (loaderMemcmp ram) rs flash h).pages = true
  · rw [if_pos hc]
    exact ⟨fun _ => ⟨hreturn.1 hhung', hclear'.1 hc⟩, fun _ => ⟨hhung', hops⟩⟩
  · rw [if_neg hc]
    have hne : accepted h rs ≠ [] := by
      intro h0
      exact hc (hclear'.2 (by simp [h0]))
    have hS : u.storeStart.toNat ≤ 0x1000 + flashPages * flashPage := by
      by_contra hlt
      refine hbad (Or.inl (Or.inr ?_))
      simp only [flashPages, flashPage] at hlt
      simp only [GT.gt, BitVec.lt_def, BitVec.toNat_ofNat]
      omega
    have herase := (erasePages_spec (S := u.storeStart.toNat) flashPages flashPage
      (compareEnd (loaderMemcmp ram) rs flash h) (by decide) hS).2.2
    constructor
    · rintro ⟨h₁, h₂⟩
      rcases visitAll_write_not_quiet ram (h := h)
        (s := { erasePages u.storeStart.toNat flashPages flashPage
          (compareEnd (loaderMemcmp ram) rs flash h) with op := .write })
        ⟨rfl, herase.1.trans hcmp.suInfo, herase.2.1.trans hhung'⟩ hne hd with h₃ | h₃
      · rw [h₁] at h₃
        cases h₃
      · exact absurd h₂ h₃
    · rintro ⟨-, hall⟩
      exact absurd (hclear'.2 hall) hc

/-- What `Main` leaves alone does not depend on how the store is read. -/
theorem main_quiet_iff {m : Comparator} :
    ((main m u flash).hung = false ∧ (main m u flash).ops = []) ↔
      ((mainRecords m (storeRecords u flash) u flash).hung = false ∧
        (mainRecords m (storeRecords u flash) u flash).ops = []) := by
  rcases main_refines m u flash with ⟨-, b, hb⟩ | ⟨h₁, h₂⟩
  · rw [hb]
  · -- both have touched the store, so neither has left flash alone
    have hops : ∀ s : State, ¬ s.Undamaged u.storeStart.toNat → s.ops ≠ [] := fun s hs h0 =>
      hs fun o ho => by simp [h0] at ho
    simp [hops _ h₁, hops _ h₂]

/-- The chunks of the update are in flash. -/
def Applied (rs : List StoreRecord) (h : SuInfo) (flash : ℕ → Byte) : Prop :=
  ∀ d, .chunk d ∈ rs → ¬ Foreign h d → flashBytes flash d.address.toNat oqSuChunk = d.data

/-- The first chunk of a complete update. -/
theorem ChunksPresent.exists_accepted (hpresent : ChunksPresent rs h) (hsane : ¬ Insane h)
    (hmod : h.start.toNat % oqSuChunk = 0) :
    ∃ d ∈ accepted h rs, d.address.toNat = h.start.toNat := by
  have hs := not_insane_iff.1 hsane
  obtain ⟨d, hd, hseq, haddr⟩ := hpresent h.start.toNat hmod le_rfl (by omega)
  refine ⟨d, mem_accepted.2 ⟨hd, (not_foreign_iff (by omega)).2 ⟨hseq, by omega, by omega⟩⟩, haddr⟩

/-- **An update in flash is left alone** exactly when it lies above what the
map of the pages covers, and every chunk differs in what follows it. -/
theorem quiet_iff (hpast : PastSearch (loaderMemcmp ram) u flash)
    (hpresent : ChunksPresent (storeRecords u flash) (selected (loaderMemcmp ram) u flash))
    (happlied : Applied (storeRecords u flash) (selected (loaderMemcmp ram) u flash) flash) :
    ((main (loaderMemcmp ram) u flash).hung = false ∧ (main (loaderMemcmp ram) u flash).ops = []) ↔
      mapEnd ≤ (selected (loaderMemcmp ram) u flash).start.toNat ∧
        ∀ i d, (accepted (selected (loaderMemcmp ram) u flash)
          (storeRecords u flash))[i]? = some d →
          Differs (ram i) (flashBytes flash (d.address.toNat + oqSuChunk)
            (flashSize - (d.address.toNat + oqSuChunk))) := by
  obtain ⟨hbad, pre, h, post, hrs, ha⟩ := pastSearch_iff.1 hpast
  have hw := storeRecords_wellFormed u flash
  rw [selected_eq hrs ha.selects] at *
  rw [main_quiet_iff, mainRecords_quiet_iff hbad hrs ha hw]
  have hsane := not_insane_iff.1 ha.selects.sane
  have hhead : (StoreRecord.info h).WellFormed := hw _ (by simp [hrs])
  obtain ⟨d₀, hd₀, haddr₀⟩ := hpresent.exists_accepted ha.selects.sane hhead.1
  have hbounds : ∀ d ∈ accepted h (storeRecords u flash), h.start.toNat ≤ d.address.toNat ∧
      d.address.toNat + oqSuChunk ≤ flashSize := by
    intro d hd
    obtain ⟨hmem, hf⟩ := mem_accepted.1 hd
    have := (not_foreign_iff (hw _ hmem).2.1).1 hf
    simp only [oqSuChunk, flashSize, flashPages, flashPage]
    omega
  have hreturn : ∀ i d, (accepted h (storeRecords u flash))[i]? = some d →
      (loaderMemcmp ram i d flash ≠ none ↔ Differs (ram i)
        (flashBytes flash (d.address.toNat + oqSuChunk)
          (flashSize - (d.address.toNat + oqSuChunk)))) := by
    intro i d hi
    obtain ⟨hmem, hf⟩ := mem_accepted.1 (List.mem_of_getElem? hi)
    exact loaderMemcmp_applied (hbounds d (List.mem_of_getElem? hi)).2 (happlied d hmem hf)
  constructor
  · rintro ⟨h₁, h₂⟩
    exact ⟨haddr₀ ▸ h₂ d₀ hd₀, fun i d hi => (hreturn i d hi).1 (h₁ i d hi)⟩
  · rintro ⟨h₁, h₂⟩
    exact ⟨fun i d hi => (hreturn i d hi).2 (h₂ i d hi), fun d hd => le_trans h₁ (hbounds d hd).1⟩

/-- Flash below the store is zero. -/
def appliedFlash : ℕ → Byte := oneUpdateFlash fun _ => 0#8

/-- The update is complete and in flash. -/
theorem oneUpdate_applied (m : Comparator) :
    ChunksPresent (storeRecords uicr₀ appliedFlash) (selected m uicr₀ appliedFlash) ∧
      Applied (storeRecords uicr₀ appliedFlash) (selected m uicr₀ appliedFlash) appliedFlash := by
  simp only [appliedFlash, storeRecords_oneUpdate, oneUpdate_selected]
  have hw : ∀ r ∈ zeroChunks 1#32 ++ [StoreRecord.exec ⟨1#32, 5#32⟩], r.WellFormed := by
    have := storeRecords_wellFormed uicr₀ appliedFlash
    rw [appliedFlash, storeRecords_oneUpdate] at this
    exact fun r hr => this r (List.mem_cons_of_mem _ hr)
  refine ⟨oneUpdate_applies.complete.chunksPresent hw (by decide) fun r hr =>
    List.mem_cons_of_mem _ hr, fun d hd hf => ?_⟩
  simp only [oneUpdate, List.mem_cons, reduceCtorEq, List.mem_append, mem_chunksFrom,
    List.not_mem_nil, or_false, false_or] at hd
  obtain ⟨i, hi, rfl⟩ := hd
  have haddr : (BitVec.ofNat 32 (0x1000 + oqSuChunk * i)).toNat = 0x1000 + oqSuChunk * i := by
    simp only [oqSuChunk]
    rw [BitVec.toNat_ofNat, Nat.mod_eq_of_lt (by omega)]
  refine List.ext_getElem (by simp [flashBytes]) fun j h₁ h₂ => ?_
  simp only [flashBytes, List.getElem_map, List.getElem_range, haddr, oneUpdateFlash, storeOf,
    imageOf, List.getElem_replicate]
  have hj : j < 64 := by simpa using h₂
  rw [if_pos (by simp only [oqSuChunk]; omega)]

theorem quiet_iff_one :
    ((main (loaderMemcmp fun _ => [1#8]) uicr₀ appliedFlash).hung = false ∧
        (main (loaderMemcmp fun _ => [1#8]) uicr₀ appliedFlash).ops = []) ↔
      mapEnd ≤ (selected (loaderMemcmp fun _ => [1#8]) uicr₀ appliedFlash).start.toNat ∧
        ∀ (i : ℕ) (d : SuData), (accepted
          (selected (loaderMemcmp fun _ => [1#8]) uicr₀ appliedFlash)
            (storeRecords uicr₀ appliedFlash))[i]? = some d →
          Differs [1#8] (flashBytes appliedFlash (d.address.toNat + oqSuChunk)
            (flashSize - (d.address.toNat + oqSuChunk))) :=
  quiet_iff (oneUpdate_past _ _) (oneUpdate_applied _).1 (oneUpdate_applied _).2

/-- **An update that is in flash is not left alone.** -/
theorem not_quiet :
    PastSearch (loaderMemcmp fun _ => [1#8]) uicr₀ appliedFlash ∧
      ChunksPresent (storeRecords uicr₀ appliedFlash)
        (selected (loaderMemcmp fun _ => [1#8]) uicr₀ appliedFlash) ∧
      Applied (storeRecords uicr₀ appliedFlash)
        (selected (loaderMemcmp fun _ => [1#8]) uicr₀ appliedFlash) appliedFlash ∧
      ¬ ((main (loaderMemcmp fun _ => [1#8]) uicr₀ appliedFlash).hung = false ∧
        (main (loaderMemcmp fun _ => [1#8]) uicr₀ appliedFlash).ops = []) := by
  have hpast := oneUpdate_past (loaderMemcmp fun _ => [1#8]) fun _ => 0#8
  have hboth := oneUpdate_applied (loaderMemcmp fun _ => [1#8])
  refine ⟨hpast, hboth.1, hboth.2, ?_⟩
  have hrs : storeRecords uicr₀ appliedFlash = [] ++ .info ⟨1#32, 5#32, 0x1000#32, 0x2000#32⟩ ::
      (zeroChunks 1#32 ++ [.exec ⟨1#32, 5#32⟩]) := storeRecords_oneUpdate _
  have hw := storeRecords_wellFormed uicr₀ appliedFlash
  rw [main_quiet_iff, mainRecords_quiet_iff (by decide) hrs oneUpdate_applies hw]
  rintro ⟨-, hall⟩
  -- the chunk at 0x1000 is one of the update, and the map of the pages covers it
  have hsel := oneUpdate_selected (loaderMemcmp fun _ => [1#8]) fun _ => 0#8
  change selected _ uicr₀ appliedFlash = _ at hsel
  have hp := hboth.1
  rw [hsel] at hp
  obtain ⟨d, hd, haddr⟩ := hp.exists_accepted (by decide) (by decide)
  have := hall d hd
  rw [haddr] at this
  exact absurd this (by decide)

end Quiet

end Loader

end AntTracer
