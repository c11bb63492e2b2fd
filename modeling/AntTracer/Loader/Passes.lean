import AntTracer.Loader.Image

/-!
# The compare pass, the erase loop and the write pass

What each does to the maps and to flash. Only the chunks of the update count
in these passes (`accepted`). The compare pass marks the pages of the chunks
that differ, the erase loop erases the pages marked, and the write pass writes
the chunks that differ then.
-/

namespace AntTracer

namespace Loader

/-- A record of the update that the compare and the write pass act on. -/
def wanted (h : SuInfo) : StoreRecord → Option SuData
  | .chunk d => if Foreign h d then none else some d
  | _ => none

/-- The chunks of the update, in the order of the store. -/
def accepted (h : SuInfo) (rs : List StoreRecord) : List SuData := rs.filterMap (wanted h)

theorem mem_accepted {h : SuInfo} {rs : List StoreRecord} {d : SuData} :
    d ∈ accepted h rs ↔ .chunk d ∈ rs ∧ ¬ Foreign h d := by
  simp only [accepted, List.mem_filterMap]
  constructor
  · rintro ⟨r, hr, hw⟩
    cases r with
    | chunk d' =>
      simp only [wanted] at hw
      split_ifs at hw with hf
      cases hw
      exact ⟨hr, hf⟩
    | info i => cases hw
    | exec x => cases hw
  · rintro ⟨hr, hf⟩
    exact ⟨_, hr, if_neg hf⟩

section Chunks

variable {m : Comparator} {s : State} {ds : List SuData}

/-- Act on a chunk of the update. -/
abbrev visit (m : Comparator) (d : SuData) (s : State) : State := callback m (.chunk d) s

/-- Act on the chunks of a list. -/
def visitAll (m : Comparator) (ds : List SuData) (s : State) : State :=
  ds.foldl (fun s d => visit m d s) s

theorem visitAll_cons (d : SuData) : visitAll m (d :: ds) s = visitAll m ds (visit m d s) := rfl

theorem callback_of_hung (h : s.hung = true) (r : StoreRecord) : callback m r s = s := by
  simp [callback, h]

theorem callback_suInfo (hop : s.op ≠ .search) (r : StoreRecord) :
    (callback m r s).suInfo = s.suInfo := by
  have h := callback_called (m := m) r s
  generalize callback m r s = s' at h
  cases h with
  | header info hs => exact absurd hs hop
  | _ => rfl

theorem callback_wanted_none (hop : s.op ≠ .search) {r : StoreRecord}
    (hr : wanted s.suInfo r = none) :
    callback m r s = s := by
  have h := callback_called (m := m) r s
  generalize callback m r s = s' at h
  cases h with
  | ignored => rfl
  | header _ hs => exact absurd hs hop
  | execute _ hs => exact absurd hs hop
  | found d _ hf => simp [wanted, hf] at hr
  | hang d _ hf => simp [wanted, hf] at hr
  | equal d _ hf => simp [wanted, hf] at hr
  | mark d _ _ hf => simp [wanted, hf] at hr
  | program d _ _ hf => simp [wanted, hf] at hr

/-- **Only the chunks of the update count** once the search is over. -/
theorem runRecords_accepted (rs : List StoreRecord) : ∀ {s : State}, s.op ≠ .search →
    runRecords m rs s = visitAll m (accepted s.suInfo rs) s := by
  induction rs with
  | nil => exact fun _ => rfl
  | cons r rs ih =>
    intro s hop
    have hop' : (callback m r s).op ≠ .search := by rwa [callback_op]
    rw [runRecords_cons, ih hop', callback_suInfo hop, accepted, accepted, List.filterMap_cons]
    cases hw : wanted s.suInfo r with
    | none =>
      simp only
      rw [callback_wanted_none hop hw]
    | some d =>
      have hr : r = .chunk d := by
        cases r with
        | chunk d' =>
          simp only [wanted] at hw
          split_ifs at hw
          cases hw
          rfl
        | info i => cases hw
        | exec x => cases hw
      simp only [visitAll_cons, visit, hr]

theorem visitAll_of_hung (ds : List SuData) (h : s.hung = true) : visitAll m ds s = s := by
  induction ds with
  | nil => rfl
  | cons d ds ih =>
    rw [visitAll_cons, visit, callback_of_hung h]
    exact ih

end Chunks

/-! ## The compare pass -/

section Compare

variable {m : Comparator} {s : State}

/-- The state in the compare pass. -/
structure Comparing (h : SuInfo) (s : State) : Prop where
  op : s.op = .compare
  suInfo : s.suInfo = h
  hung : s.hung = false
  shape : s.pages.shape = (newMap flashPage).shape

theorem pages_laid {m : Map} (h : m.shape = (newMap flashPage).shape) : m.Laid :=
  (mapDefine_laid (by decide) (by decide) (by decide)).of_shape h

theorem pages_range {m : Map} (h : m.shape = (newMap flashPage).shape) :
    m.start = 0 ∧ m.stop = mapEnd ∧ m.chunkSize = flashPage :=
  Map.range_of_shape h

/-- Marking a page. -/
theorem has_mapSet_pages {m : Map} (h : m.shape = (newMap flashPage).shape) (a k : ℕ) :
    Has (mapSet m a) k ↔ Has m k ∨ (a < mapEnd ∧ a / flashPage = k) := by
  have hlaid := pages_laid h
  obtain ⟨hstart, hstop, hsize⟩ := pages_range h
  by_cases ha : a < mapEnd
  · rw [has_mapSet hlaid (by omega) (by omega), Map.slotOf, hstart, hsize, Nat.sub_zero]
    simp only [ha, true_and, eq_comm]
  · rw [mapSet_of_ge (by omega)]
    simp [ha]

theorem visit_compare {d : SuData} (hop : s.op = .compare) (hhung : s.hung = false)
    (hf : ¬ Foreign s.suInfo d) : visit m d s =
      match m s.compares d s.flash with
      | none => { s with hung := true, compares := s.compares + 1 }
      | some r =>
        if r = 0 then { s with compares := s.compares + 1 }
        else { s with compares := s.compares + 1, pages := mapSet s.pages d.address.toNat } := by
  simp only [visit, callback, hhung, Bool.false_eq_true, if_false,
    storeCallbackSoftwareUpdateChunk, if_neg hf, hop]
  cases m s.compares d s.flash with
  | none => simp only
  | some r => by_cases hr : r = 0 <;> simp [hr]

/-- One comparison. -/
theorem Comparing.visit {h : SuInfo} {d : SuData} (hs : Comparing h s) (hd : ¬ Foreign h d) :
    (m s.compares d s.flash = none ∧ (visit m d s).hung = true) ∨
      (m s.compares d s.flash ≠ none ∧ Comparing h (visit m d s) ∧
        (visit m d s).flash = s.flash ∧ (visit m d s).compares = s.compares + 1 ∧
        ∀ k, Has (visit m d s).pages k ↔ Has s.pages k ∨
          (m s.compares d s.flash ≠ some 0 ∧ d.address.toNat < mapEnd ∧
            d.address.toNat / flashPage = k)) := by
  obtain ⟨hop, hinfo, hhung, hshape⟩ := hs
  have hf : ¬ Foreign s.suInfo d := by rwa [hinfo]
  cases hc : m s.compares d s.flash with
  | none => exact Or.inl ⟨rfl, by rw [visit_compare hop hhung hf, hc]⟩
  | some r =>
    refine Or.inr ⟨Option.some_ne_none r, ?_⟩
    rw [visit_compare hop hhung hf, hc]
    by_cases hr : r = 0
    · subst hr
      exact ⟨⟨hop, hinfo, hhung, hshape⟩, rfl, rfl, fun k => by simp⟩
    · dsimp only
      rw [if_neg hr]
      refine ⟨⟨hop, hinfo, hhung, by simpa using hshape⟩, rfl, rfl, fun k => ?_⟩
      rw [has_mapSet_pages hshape]
      simp [hr]

/-- **The compare pass** returns when every comparison does, and then has
marked the pages of the chunks that differ. -/
theorem Comparing.visitAll {h : SuInfo} (ds : List SuData) : ∀ {s : State}, Comparing h s →
    (∀ d ∈ ds, ¬ Foreign h d) →
    ((visitAll m ds s).hung = false ↔
        ∀ i d, ds[i]? = some d → m (s.compares + i) d s.flash ≠ none) ∧
      ((visitAll m ds s).hung = false →
        Comparing h (visitAll m ds s) ∧ (visitAll m ds s).compares = s.compares + ds.length ∧
        ∀ k, Has (visitAll m ds s).pages k ↔ Has s.pages k ∨
          ∃ i d, ds[i]? = some d ∧ m (s.compares + i) d s.flash ≠ some 0 ∧
            d.address.toNat < mapEnd ∧ d.address.toNat / flashPage = k) := by
  induction ds with
  | nil =>
    intro s hs _
    refine ⟨?_, fun _ => ⟨hs, rfl, fun k => ?_⟩⟩
    · simp [Loader.visitAll, hs.hung]
    · simp [Loader.visitAll]
  | cons d ds ih =>
    intro s hs hd
    have hd' : ∀ d ∈ ds, ¬ Foreign h d := fun d' h' => hd d' (List.mem_cons_of_mem _ h')
    rw [visitAll_cons]
    rcases hs.visit (m := m) (hd d (List.mem_cons_self ..)) with
      ⟨hc, hhung⟩ | ⟨hc, hnext, hflash, hcount, hpages⟩
    · have hstay : Loader.visitAll m ds (Loader.visit m d s) = Loader.visit m d s :=
        visitAll_of_hung ds hhung
      rw [hstay, hhung]
      refine ⟨⟨fun h => absurd h (by decide), fun hall => ?_⟩, fun h => absurd h (by decide)⟩
      exact absurd hc (hall 0 d rfl)
    · obtain ⟨ih₁, ih₂⟩ := ih hnext hd'
      rw [hflash, hcount] at ih₁ ih₂
      refine ⟨ih₁.trans ⟨fun hall i e he => ?_, fun hall i e he => ?_⟩, fun hno => ?_⟩
      · cases i with
        | zero =>
          cases he
          exact hc
        | succ i =>
          rw [show s.compares + (i + 1) = s.compares + 1 + i by omega]
          exact hall i e he
      · rw [show s.compares + 1 + i = s.compares + (i + 1) by omega]
        exact hall (i + 1) e he
      · obtain ⟨h₁, h₂, h₃⟩ := ih₂ hno
        refine ⟨h₁, by rw [h₂, List.length_cons]; omega, fun k => ?_⟩
        rw [h₃, hpages, or_assoc]
        refine or_congr_right ⟨?_, ?_⟩
        · rintro (h₄ | ⟨i, e, he, h₄⟩)
          · exact ⟨0, d, rfl, h₄⟩
          · refine ⟨i + 1, e, he, ?_⟩
            rwa [show s.compares + (i + 1) = s.compares + 1 + i by omega]
        · rintro ⟨i, e, he, h₄⟩
          cases i with
          | zero =>
            cases he
            exact Or.inl h₄
          | succ i =>
            rw [show s.compares + (i + 1) = s.compares + 1 + i by omega] at h₄
            exact Or.inr ⟨i, e, he, h₄⟩

end Compare

/-! ## The erase loop -/

section Erase

variable {S : ℕ} {s : State}

/-- The erase loop reaches this page and finds it marked. -/
def Erased (S pg : ℕ) (pages : Map) (a : ℕ) : Prop :=
  pg ≤ a / flashPage * flashPage ∧ a / flashPage * flashPage < S ∧
    mapIsSet pages (a / flashPage * flashPage) = true

instance (S pg : ℕ) (pages : Map) (a : ℕ) : Decidable (Erased S pg pages a) :=
  inferInstanceAs (Decidable (_ ∧ _ ∧ _))

/-- **The erase loop** erases the pages marked, and touches nothing else. -/
theorem erasePages_spec (n : ℕ) : ∀ (pg : ℕ) (s : State), pg % flashPage = 0 →
    S ≤ pg + n * flashPage →
    (∀ a, (erasePages S n pg s).flash a = if Erased S pg s.pages a then 0xff#8 else s.flash a) ∧
      (∃ ops, (erasePages S n pg s).ops = s.ops ++ ops ∧
        ∀ a, (∃ o ∈ ops, o.Touches a) ↔ Erased S pg s.pages a) ∧
      (erasePages S n pg s).suInfo = s.suInfo ∧ (erasePages S n pg s).hung = s.hung ∧
      (erasePages S n pg s).compares = s.compares := by
  induction n with
  | zero =>
    intro pg s _ hS
    have hno : ∀ a, ¬ Erased S pg s.pages a := fun a h => by have := h.1; have := h.2.1; omega
    refine ⟨fun a => by rw [if_neg (hno a)]; rfl, ⟨[], by simp [erasePages], fun a => ?_⟩,
      rfl, rfl, rfl⟩
    simp [hno a]
  | succ n ih =>
    intro pg s hmod hS
    by_cases hpg : pg < S
    swap
    · have hno : ∀ a, ¬ Erased S pg s.pages a := fun a h => by have := h.1; have := h.2.1; omega
      rw [erasePages, if_neg hpg]
      refine ⟨fun a => by rw [if_neg (hno a)], ⟨[], by simp, fun a => ?_⟩, rfl, rfl, rfl⟩
      simp [hno a]
    -- an address is in this page, or left to the rest of the loop
    have hsplit : ∀ a, Erased S pg s.pages a ↔
        (mapIsSet s.pages pg = true ∧ pg / flashPage = a / flashPage) ∨
          Erased S (pg + flashPage) s.pages a := by
      intro a
      unfold Erased
      by_cases heq : a / flashPage * flashPage = pg
      · rw [heq]
        have hdiv : pg / flashPage = a / flashPage := by simp only [flashPage] at *; omega
        simp only [hdiv, and_true]
        constructor
        · exact fun h => Or.inl h.2.2
        · rintro (h | h)
          · exact ⟨le_rfl, hpg, h⟩
          · have := h.1
            simp only [flashPage] at *
            omega
      · have hdiv : ¬ pg / flashPage = a / flashPage := by simp only [flashPage] at *; omega
        simp only [hdiv, and_false, false_or]
        refine and_congr_left fun _ => ?_
        simp only [flashPage] at *
        omega
    rw [erasePages, if_pos hpg]
    by_cases hm : mapIsSet s.pages pg = true
    · rw [if_pos hm]
      obtain ⟨h₁, ⟨ops, h₂, h₃⟩, h₄, h₅, h₆⟩ := ih (pg + flashPage) (s.perform (.erase pg))
        (by simp only [flashPage] at *; omega) (by simp only [flashPage] at *; omega)
      refine ⟨fun a => ?_, ⟨.erase pg :: ops, ?_, fun a => ?_⟩, h₄, h₅, h₆⟩
      · rw [h₁]
        change (if Erased S (pg + flashPage) s.pages a then _ else
          (FlashOp.erase pg).apply s.flash a) = _
        simp only [hsplit, hm, true_and, FlashOp.apply]
        split_ifs <;> simp_all
      · rw [h₂]
        simp [State.perform]
      · rw [hsplit]
        simp only [List.mem_cons, exists_eq_or_imp, FlashOp.Touches, hm, true_and]
        exact or_congr_right (h₃ a)
    · rw [if_neg hm]
      obtain ⟨h₁, ⟨ops, h₂, h₃⟩, h₄, h₅, h₆⟩ := ih (pg + flashPage) s
        (by simp only [flashPage] at *; omega) (by simp only [flashPage] at *; omega)
      refine ⟨fun a => ?_, ⟨ops, h₂, fun a => ?_⟩, h₄, h₅, h₆⟩
      · simp only [h₁, hsplit, hm, false_and, false_or, Bool.false_eq_true]
      · simp only [h₃, hsplit, hm, false_and, false_or, Bool.false_eq_true]

end Erase

/-! ## The write pass -/

section Write

variable {m : Comparator} {s : State} {h : SuInfo}

/-- The state in the write pass. -/
structure Writing (h : SuInfo) (s : State) : Prop where
  op : s.op = .write
  suInfo : s.suInfo = h
  hung : s.hung = false

/-- One chunk of the write pass. -/
theorem Writing.visit {d : SuData} (hs : Writing h s) (hd : ¬ Foreign h d) :
    (m s.compares d s.flash = none ∧ (visit m d s).hung = true ∧
        (visit m d s).flash = s.flash ∧ (visit m d s).ops = s.ops) ∨
      (Writing h (visit m d s) ∧ (visit m d s).compares = s.compares + 1 ∧
        ((m s.compares d s.flash = some 0 ∧ (visit m d s).flash = s.flash ∧
            (visit m d s).ops = s.ops) ∨
          (∃ r, m s.compares d s.flash = some r ∧ r ≠ 0 ∧
            (visit m d s).flash = (FlashOp.program d.address.toNat d.data).apply s.flash ∧
            (visit m d s).ops = s.ops ++ [.program d.address.toNat d.data]))) := by
  obtain ⟨hop, hinfo, hhung⟩ := hs
  have hf : ¬ Foreign s.suInfo d := by rwa [hinfo]
  have heq : Loader.visit m d s = match m s.compares d s.flash with
      | none => { s with hung := true, compares := s.compares + 1 }
      | some r =>
        if r = 0 then { s with compares := s.compares + 1 }
        else ({ s with compares := s.compares + 1 } : State).perform
          (.program d.address.toNat d.data) := by
    simp only [Loader.visit, callback, hhung, Bool.false_eq_true, if_false,
      storeCallbackSoftwareUpdateChunk, if_neg hf, hop]
    cases m s.compares d s.flash with
    | none => simp only
    | some r => by_cases hr : r = 0 <;> simp [hr]
  rw [heq]
  cases hc : m s.compares d s.flash with
  | none => exact Or.inl ⟨rfl, rfl, rfl, rfl⟩
  | some r =>
    refine Or.inr ?_
    dsimp only
    by_cases hr : r = 0
    · subst hr
      exact ⟨⟨hop, hinfo, hhung⟩, rfl, Or.inl ⟨rfl, rfl, rfl⟩⟩
    · rw [if_neg hr]
      exact ⟨⟨hop, hinfo, hhung⟩, rfl, Or.inr ⟨r, rfl, hr, rfl, rfl⟩⟩

/-- **An invariant of the write pass**, kept by every chunk that is equal or
is written. -/
theorem Writing.visitAll_inv {P : State → Prop} {ds : List SuData} (hd : ∀ d ∈ ds, ¬ Foreign h d)
    (hstep : ∀ d ∈ ds, ∀ s, Writing h s → P s → P (Loader.visit m d s)) :
    ∀ {s : State}, Writing h s → P s → P (visitAll m ds s) := by
  induction ds with
  | nil => exact fun _ hP => hP
  | cons d ds ih =>
    intro s hs hP
    have hP' := hstep d (List.mem_cons_self ..) s hs hP
    rw [visitAll_cons]
    rcases hs.visit (m := m) (hd d (List.mem_cons_self ..)) with ⟨-, hhung, -⟩ | ⟨hnext, -⟩
    · rwa [visitAll_of_hung ds hhung]
    · exact ih (fun d' h' => hd d' (List.mem_cons_of_mem _ h'))
        (fun d' h' => hstep d' (List.mem_cons_of_mem _ h')) hnext hP'

end Write

/-! ## The passes together -/

section Main

variable {m : Comparator} {s : State} {u : UICR} {flash : ℕ → Byte} {h : SuInfo}
variable {rs pre post : List StoreRecord}

/-- The state the compare pass begins in. -/
def compareStart (m : Comparator) (rs : List StoreRecord) (flash : ℕ → Byte) : State :=
  let s := searchPass (runRecords m rs) (State.boot flash)
  { s with op := .compare, pages := mapClearAll s.pages }

theorem searchPass_rest (m : Comparator) (rs : List StoreRecord) (flash : ℕ → Byte) :
    (searchPass (runRecords m rs) (State.boot flash)).compares = 0 ∧
      (searchPass (runRecords m rs) (State.boot flash)).hung = false ∧
      (searchPass (runRecords m rs) (State.boot flash)).pages = newMap flashPage := by
  have hinv := runRecords_inv (m := m)
    (P := fun s => Searching s ∧ s.compares = 0 ∧ s.pages = newMap flashPage) rs
    (fun r _ s ⟨hs, hc, hp⟩ => by
      refine ⟨hs.step r, ?_⟩
      have h := callback_called (m := m) r s
      generalize callback m r s = s' at h
      cases h with
      | hang _ hne => exact absurd hs.op hne
      | equal _ hne => exact absurd hs.op hne
      | mark _ _ hop => exact absurd (hs.op.symm.trans hop) (by decide)
      | program _ _ hop => exact absurd (hs.op.symm.trans hop) (by decide)
      | _ => exact ⟨hc, hp⟩)
    { State.boot flash with op := .search } ⟨Searching.boot flash, rfl, rfl⟩
  exact ⟨hinv.2.1, hinv.1.hung, hinv.2.2⟩

/-- What the compare pass begins with. -/
theorem compareStart_spec (flash : ℕ → Byte) (hrs : rs = pre ++ .info h :: post)
    (hs : Selects pre h post)
    (hw : ∀ r ∈ rs, r.WellFormed) :
    Comparing h (compareStart m rs flash) ∧ (compareStart m rs flash).flash = flash ∧
      (compareStart m rs flash).ops = [] ∧ (compareStart m rs flash).compares = 0 ∧
      ∀ k < 64, ¬ Has (compareStart m rs flash).pages k := by
  obtain ⟨h₁, h₂, h₃⟩ := searchPass_rest m rs flash
  subst hrs
  refine ⟨⟨rfl, (searchPass_selects flash hs hw).1, h₂, ?_⟩, searchPass_flash, searchPass_ops _, h₁,
    fun k hk => ?_⟩
  · simp only [compareStart, shape_mapClearAll, h₃]
  · simp only [compareStart, h₃]
    exact not_has_mapClearAll (pages_laid rfl) (show k < 64 from hk)

theorem visitAll_eq_runRecords (ds : List SuData) : ∀ s : State,
    visitAll m ds s = runRecords m (ds.map .chunk) s := by
  induction ds with
  | nil => exact fun _ => rfl
  | cons d ds ih => exact fun s => ih _

/-- The state after the compare pass. -/
def compareEnd (m : Comparator) (rs : List StoreRecord) (flash : ℕ → Byte) (h : SuInfo) : State :=
  visitAll m (accepted h rs) (compareStart m rs flash)

/-- **What the compare pass ends with**: flash as it was, and the pages of the
chunks that differ marked. -/
theorem compareEnd_spec (flash : ℕ → Byte) (hrs : rs = pre ++ .info h :: post)
    (hs : Selects pre h post)
    (hw : ∀ r ∈ rs, r.WellFormed) :
    (compareEnd m rs flash h).flash = flash ∧ (compareEnd m rs flash h).ops = [] ∧
      ((compareEnd m rs flash h).hung = false ↔
        ∀ i d, (accepted h rs)[i]? = some d → m i d flash ≠ none) ∧
      ((compareEnd m rs flash h).hung = false →
        Comparing h (compareEnd m rs flash h) ∧
        (compareEnd m rs flash h).compares = (accepted h rs).length ∧
        (∀ p < 64, mapIsSet (compareEnd m rs flash h).pages (p * flashPage) = true ↔
          ∃ i d, (accepted h rs)[i]? = some d ∧ m i d flash ≠ some 0 ∧
            d.address.toNat / flashPage = p) ∧
        (mapIsClearAll (compareEnd m rs flash h).pages = true ↔
          ∀ i d, (accepted h rs)[i]? = some d → d.address.toNat < mapEnd →
            m i d flash = some 0)) := by
  obtain ⟨hstart, hflash, hops, hcount, hnone⟩ :=
    compareStart_spec (m := m) flash hrs hs hw
  have hd : ∀ d ∈ accepted h rs, ¬ Foreign h d := fun d hd => (mem_accepted.1 hd).2
  obtain ⟨h₁, h₂⟩ := hstart.visitAll (m := m) _ hd
  have hstay := runRecords_ops (m := m) ((accepted h rs).map .chunk)
    (s := compareStart m rs flash) (by rw [hstart.op]; decide)
  rw [← visitAll_eq_runRecords, hflash, hops] at hstay
  rw [hflash, hcount] at h₁ h₂
  simp only [Nat.zero_add] at h₁ h₂
  refine ⟨hstay.2.1, hstay.1, h₁, fun hhung => ?_⟩
  obtain ⟨hcmp, hlen, hpages⟩ := h₂ hhung
  change Comparing h (compareEnd m rs flash h) at hcmp
  have hlaid := pages_laid hcmp.shape
  obtain ⟨hstart, hstop, hsize⟩ := pages_range hcmp.shape
  refine ⟨hcmp, hlen, fun p hp => ?_, ?_⟩
  · rw [mapIsSet_iff hlaid (by omega) (by simp only [flashPage, mapEnd] at *; omega),
      Map.slotOf, hstart, hsize, Nat.sub_zero, Nat.mul_div_cancel _ (by decide)]
    rw [compareEnd, hpages]
    constructor
    · rintro (h' | ⟨i, d, hi, hne, -, ha⟩)
      · exact absurd h' (hnone p hp)
      · exact ⟨i, d, hi, hne, ha⟩
    · rintro ⟨i, d, hi, hne, ha⟩
      exact Or.inr ⟨i, d, hi, hne, by simp only [flashPage, mapEnd] at *; omega, ha⟩
  · have hslots : (compareEnd m rs flash h).pages.slots = 64 := by
      rw [Map.slots, hstart, hstop, hsize]
      rfl
    rw [mapIsClearAll_iff hlaid, hslots]
    constructor
    · intro hall i d hi ha
      by_contra hne
      exact hall (d.address.toNat / flashPage) (by simp only [flashPage, mapEnd] at *; omega)
        ((hpages _).2 (Or.inr ⟨i, d, hi, hne, ha, rfl⟩))
    · intro hall k hk hhas
      rcases (hpages k).1 hhas with h' | ⟨i, d, hi, hne, ha, -⟩
      · exact hnone k hk h'
      · exact hne (hall i d hi ha)

/-- **`Main` past its search test**: the compare pass, and, when it returns
and has marked a page, the erase loop and the write pass. -/
theorem mainRecords_past (hbad : ¬ u.Bad) (hrs : rs = pre ++ .info h :: post)
    (ha : Applies pre h post) (hw : ∀ r ∈ rs, r.WellFormed) :
    mainRecords m rs u flash =
      if (compareEnd m rs flash h).hung then compareEnd m rs flash h
      else if mapIsClearAll (compareEnd m rs flash h).pages then compareEnd m rs flash h
      else visitAll m (accepted h rs) { erasePages u.storeStart.toNat flashPages flashPage
        (compareEnd m rs flash h) with op := .write } := by
  have hstart := (compareStart_spec (m := m) flash hrs ha.selects hw).1
  have hsearch : ¬ (searchPass (runRecords m rs) (State.boot flash)).SearchFails := by
    subst hrs
    obtain ⟨h₁, h₂, h₃⟩ := searchPass_selects (m := m) flash ha.selects hw
    simp only [State.SearchFails, h₁, h₂, h₃, not_or, not_not]
    exact ⟨(BitVec.pos_iff_ne_zero _).1 ha.selects.pos, ha.complete, ha.version.symm⟩
  have hcompare : comparePass (runRecords m rs) (searchPass (runRecords m rs) (State.boot flash)) =
      compareEnd m rs flash h := by
    have := runRecords_accepted (m := m) rs (s := compareStart m rs flash)
      (by rw [hstart.op]; decide)
    rw [hstart.suInfo] at this
    exact this
  rw [mainRecords, mainWith, if_neg hbad]
  simp only [if_neg hsearch, hcompare]
  split
  · rfl
  rename_i hhung
  split
  · rfl
  -- the write pass sees the same header
  have hcmp := ((compareEnd_spec flash hrs ha.selects hw).2.2.2 (by simpa using hhung)).1
  have herase := (erasePages_spec (S := u.storeStart.toNat) flashPages flashPage
    (compareEnd m rs flash h) (by decide) (by
      have : u.storeStart.toNat ≤ 0x7f000 := by
        by_contra hlt
        exact hbad (Or.inl (Or.inr (by
          simp only [GT.gt, BitVec.lt_def, BitVec.toNat_ofNat]
          omega)))
      simp only [flashPages, flashPage]
      omega)).2.2.1
  have hrun := runRecords_accepted (m := m) rs
    (s := { erasePages u.storeStart.toNat flashPages flashPage
      (compareEnd m rs flash h) with op := .write })
    Op.noConfusion
  rw [show ({ erasePages u.storeStart.toNat flashPages flashPage
      (compareEnd m rs flash h) with op := .write } : State).suInfo = h
      from herase.trans hcmp.suInfo] at hrun
  exact hrun

/-- `Main` past its search test, on the store itself. -/
theorem main_past (hbad : ¬ u.Bad) (hrs : storeRecords u flash = pre ++ .info h :: post)
    (ha : Applies pre h post) : ∃ b, main m u flash =
      if (compareEnd m (storeRecords u flash) flash h).hung then
        (compareEnd m (storeRecords u flash) flash h).setBuf b
      else if mapIsClearAll (compareEnd m (storeRecords u flash) flash h).pages then
        (compareEnd m (storeRecords u flash) flash h).setBuf b
      else writePass (storeRead m u) (erasePages u.storeStart.toNat flashPages flashPage
        ((compareEnd m (storeRecords u flash) flash h).setBuf b)) := by
  have hw := storeRecords_wellFormed u flash
  have hboot := boot_undamaged (S := u.storeStart.toNat) flash
  obtain ⟨hi₁, ha₁⟩ := searchPass_agree (m := m) flash (Agree.refl hboot)
    fun _ _ _ => rfl
  have hu₁ := (undamaged_of_ops (searchPass_ops (m := m) (storeRecords u flash))).2 hboot
  obtain ⟨-, ha₂⟩ := comparePass_agree (m := m) ha₁ hi₁
  obtain ⟨b₁, hb₁⟩ := ha₁.eq_setBuf hu₁
  obtain ⟨b, hb⟩ := ha₂.eq_setBuf ((undamaged_of_ops comparePass_ops).2 hu₁)
  have hpast : PastSearch m u flash := pastSearch_iff.2 ⟨hbad, pre, h, post, hrs, ha⟩
  have hstart := (compareStart_spec (m := m) flash hrs ha.selects hw).1
  have hend : comparePass (runRecords m (storeRecords u flash))
      (searchPass (runRecords m (storeRecords u flash)) (State.boot flash)) =
      compareEnd m (storeRecords u flash) flash h := by
    have := runRecords_accepted (m := m) (storeRecords u flash)
      (s := compareStart m (storeRecords u flash) flash) (by rw [hstart.op]; decide)
    rw [hstart.suInfo] at this
    exact this
  rw [hend] at hb
  refine ⟨b, ?_⟩
  rw [main, mainWith, if_neg hbad]
  simp only [if_neg hpast.2, hb]

end Main

end Loader

end AntTracer
