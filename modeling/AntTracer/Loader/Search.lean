import AntTracer.Loader.Main

/-!
# The search pass

What the search pass makes of the records of the store. It selects the newest
sane header (`Selects`), keeps a map of the chunks it has not seen since, and
remembers the version of the last execute record that named the sequence
selected at the time (`versionInForce`). `pastSearch_iff` is the search test
in these terms.

The map covers addresses below `0x40000` only, and a range that ends beyond
is not entered into it at all. A header with such an end therefore waits for
no chunk (`Complete`).
-/

namespace AntTracer

namespace Loader

/-- The end of what the map of the chunks covers. -/
abbrev mapEnd : ℕ := 0x40000

/-- The number of chunks the map covers. -/
abbrev slotCount : ℕ := mapEnd / oqSuChunk

/-! ## Sane headers and the chunks of an update -/

theorem not_insane_iff {info : SuInfo} :
    ¬ Insane info ↔ 0x1000 ≤ info.start.toNat ∧ info.start.toNat ≤ 0x7f000 ∧
      info.start.toNat + 0x1000 ≤ info.stop.toNat ∧ info.stop.toNat ≤ 0x80000 := by
  simp only [Insane, BitVec.lt_def, GT.gt, BitVec.toNat_add, BitVec.toNat_ofNat]
  omega

/-- A record as the bit fields of the store can hold it. -/
def StoreRecord.WellFormed : StoreRecord → Prop
  | info i => i.start.toNat % oqSuChunk = 0 ∧ i.stop.toNat % oqSuChunk = 0
  | chunk data => data.address.toNat % oqSuChunk = 0 ∧ data.address.toNat < 0x80000 ∧
      data.data.length = oqSuChunk
  | exec _ => True

theorem readAs_eq {α : Type} {f : Buffer → α × Buffer} {l : List Word} {x : α}
    (h : readAs f l = some x) : (f (bufferOf l)).1 = x := by
  unfold readAs at h
  split at h
  · cases h
  · exact Option.some.inj h

/-- An address field is a chunk's address. -/
theorem shiftLeft_chunk_mod {w : Word} {n : ℕ} (h : w.toNat < 2 ^ n) (hn : n ≤ 26) :
    (w <<< oqSuChunkShift).toNat % oqSuChunk = 0 := by
  rw [toNat_shiftLeft_chunk h hn]
  exact Nat.mul_mod_right _ _

theorem wellFormed_of_decode {l : List Word} {r : StoreRecord} (h : decode l = some r) :
    r.WellFormed := by
  simp only [decode] at h
  split_ifs at h
  · obtain ⟨i, hi, rfl⟩ := Option.map_eq_some_iff.1 h
    rw [← readAs_eq hi]
    exact ⟨shiftLeft_chunk_mod (rd_lt (by decide) _) (by decide),
      shiftLeft_chunk_mod (rd_lt (by decide) _) (by decide)⟩
  · obtain ⟨d, hd, rfl⟩ := Option.map_eq_some_iff.1 h
    rw [← readAs_eq hd]
    have haddr := rd_lt (n := 13) (by decide) (rd 20 (bufferOf l)).2
    have heq : (rdSuData (bufferOf l)).1.address.toNat =
        64 * (rd 13 (rd 20 (bufferOf l)).2).1.toNat := toNat_shiftLeft_chunk haddr (by decide)
    refine ⟨shiftLeft_chunk_mod haddr (by decide), by omega, ?_⟩
    simp only [rdSuData, List.length_map, length_rdFields, List.length_replicate]
  · obtain ⟨x, -, rfl⟩ := Option.map_eq_some_iff.1 h
    exact True.intro

/-- **Every record of the store is well formed.** -/
theorem storeRecords_wellFormed (u : UICR) (flash : ℕ → Byte) :
    ∀ r ∈ storeRecords u flash, r.WellFormed := by
  intro r hr
  obtain ⟨l, -, hl⟩ := List.mem_filterMap.1 hr
  exact wellFormed_of_decode hl

theorem not_foreign_iff {info : SuInfo} {data : SuData} (h : data.address.toNat < 0x80000) :
    ¬ Foreign info data ↔ data.sequence = info.sequence ∧
      info.start.toNat ≤ data.address.toNat ∧ data.address.toNat + 64 ≤ info.stop.toNat := by
  have hadd : (data.address + BitVec.ofNat 32 oqSuChunk).toNat = data.address.toNat + 64 := by
    simp only [BitVec.toNat_add, BitVec.toNat_ofNat, oqSuChunk]
    omega
  simp only [Foreign, BitVec.lt_def, GT.gt, hadd, not_or, not_lt, Decidable.not_not]

/-! ## What the search pass selects -/

/-- Between the records `pre` and `post` stands the header that the search
pass selects: sane, newer than any sane header before, and not older than any
after. -/
structure Selects (pre : List StoreRecord) (h : SuInfo) (post : List StoreRecord) : Prop where
  sane : ¬ Insane h
  pos : 0#32 < h.sequence
  before : ∀ i, .info i ∈ pre → ¬ Insane i → i.sequence < h.sequence
  after : ∀ i, .info i ∈ post → ¬ Insane i → i.sequence ≤ h.sequence

/-- The newest sequence of the sane headers, from `q` on. -/
def newestSequence (q : Word) : List StoreRecord → Word
  | [] => q
  | .info i :: rs => newestSequence (if ¬ Insane i ∧ i.sequence > q then i.sequence else q) rs
  | _ :: rs => newestSequence q rs

/-- The version of the last execute record that names the newest sequence so
far, from sequence `q` and version `v` on. -/
def versionInForce (q v : Word) : List StoreRecord → Word
  | [] => v
  | .info i :: rs => versionInForce (if ¬ Insane i ∧ i.sequence > q then i.sequence else q) v rs
  | .exec x :: rs => versionInForce q (if x.sequence = q then x.version else v) rs
  | .chunk _ :: rs => versionInForce q v rs

/-- No chunk the map asks for is missing after the header. -/
def Complete (h : SuInfo) (post : List StoreRecord) : Prop :=
  h.stop.toNat < mapEnd → ∀ a, a % oqSuChunk = 0 → h.start.toNat ≤ a → a < h.stop.toNat →
    ∃ d, .chunk d ∈ post ∧ ¬ Foreign h d ∧ d.address.toNat = a

/-- Either no sane header has a sequence number, or one is selected. -/
theorem exists_selects (rs : List StoreRecord) :
    (∀ i, .info i ∈ rs → ¬ Insane i → i.sequence = 0#32) ∨
      ∃ pre h post, rs = pre ++ .info h :: post ∧ Selects pre h post := by
  induction rs using List.reverseRecOn with
  | nil => exact Or.inl fun i hi => by simp at hi
  | append_singleton rs r ih =>
    -- a header that is newer than all before it is selected
    by_cases hr : ∃ i, r = .info i ∧ ¬ Insane i ∧ 0#32 < i.sequence ∧
        ∀ j, .info j ∈ rs → ¬ Insane j → j.sequence < i.sequence
    · obtain ⟨i, rfl, hi, hpos, hb⟩ := hr
      exact Or.inr ⟨rs, i, [], rfl, hi, hpos, hb, fun j hj => by simp at hj⟩
    rcases ih with h | ⟨pre, h, post, rfl, hs⟩
    · left
      intro i hi hsane
      rcases List.mem_append.1 hi with hi | hi
      · exact h i hi hsane
      · obtain rfl := (List.mem_singleton.1 hi)
        by_contra hne
        refine hr ⟨i, rfl, hsane, (BitVec.pos_iff_ne_zero _).2 hne, fun j hj hj' => ?_⟩
        rw [h j hj hj']
        exact (BitVec.pos_iff_ne_zero _).2 hne
    · refine Or.inr ⟨pre, h, post ++ [r], by simp, hs.sane, hs.pos, hs.before, fun i hi hsane => ?_⟩
      rcases List.mem_append.1 hi with hi | hi
      · exact hs.after i hi hsane
      · obtain rfl := (List.mem_singleton.1 hi)
        by_contra hle
        have hlt : h.sequence < i.sequence := BitVec.not_le.1 hle
        refine hr ⟨i, rfl, hsane, BitVec.lt_trans hs.pos hlt, fun j hj hj' => ?_⟩
        rcases List.mem_append.1 hj with hj | hj
        · exact BitVec.lt_trans (hs.before j hj hj') hlt
        · rcases List.mem_cons.1 hj with hj | hj
          · cases hj
            exact hlt
          · have := hs.after j hj hj'
            bv_omega

/-! ## The state of the search -/

/-- A new map of the flash below `mapEnd`. -/
abbrev newMap (chunkSize : ℕ) : Map :=
  mapDefine 0#32 (BitVec.ofNat 32 mapEnd) (BitVec.ofNat 32 chunkSize)

/-- What every state of the search pass has. -/
structure Searching (s : State) : Prop where
  op : s.op = .search
  hung : s.hung = false
  shape : s.chunks.shape = (newMap oqSuChunk).shape

theorem Searching.laid {s : State} (h : Searching s) : s.chunks.Laid :=
  (mapDefine_laid (by decide) (by decide) (by decide)).of_shape h.shape

theorem Searching.range {s : State} (h : Searching s) :
    s.chunks.start = 0 ∧ s.chunks.stop = mapEnd ∧ s.chunks.chunkSize = oqSuChunk :=
  Map.range_of_shape h.shape

theorem Searching.slots {s : State} (h : Searching s) : s.chunks.slots = slotCount := by
  obtain ⟨hstart, hstop, hsize⟩ := h.range
  rw [Map.slots, hstart, hstop, hsize, Nat.sub_zero]

section Search

variable {m : Comparator} {s : State} {rs pre post : List StoreRecord} {h : SuInfo}

theorem Searching.callback_info (hs : Searching s) (i : SuInfo) :
    callback m (.info i) s =
      if ¬ Insane i ∧ i.sequence > s.suInfo.sequence then s.takeHeader i else s := by
  by_cases hi : Insane i <;> by_cases hlt : i.sequence > s.suInfo.sequence <;>
    simp [callback, storeCallbackSoftwareUpdateInfo, hs.hung, hs.op, hi, hlt]

theorem Searching.callback_chunk (hs : Searching s) (d : SuData) :
    callback m (.chunk d) s =
      if Foreign s.suInfo d then s else { s with chunks := mapClear s.chunks d.address.toNat } := by
  simp [callback, storeCallbackSoftwareUpdateChunk, hs.hung, hs.op]

theorem Searching.callback_exec (hs : Searching s) (x : SuExec) :
    callback m (.exec x) s =
      if x.sequence = s.suInfo.sequence then { s with suExec := x } else s := by
  simp [callback, storeCallbackSoftwareUpdateExecute, hs.hung, hs.op]

/-- **A record keeps the search pass going.** -/
theorem Searching.step (hs : Searching s) (r : StoreRecord) : Searching (callback m r s) := by
  cases r with
  | info i =>
    rw [hs.callback_info]
    split
    · exact ⟨hs.op, hs.hung, by simp [State.takeHeader, hs.shape]⟩
    · exact hs
  | chunk d =>
    rw [hs.callback_chunk]
    split
    · exact hs
    · exact ⟨hs.op, hs.hung, by simp [hs.shape]⟩
  | exec x =>
    rw [hs.callback_exec]
    split
    · exact ⟨hs.op, hs.hung, hs.shape⟩
    · exact hs

theorem Searching.run (hs : Searching s) (rs : List StoreRecord) :
    Searching (runRecords m rs s) :=
  runRecords_inv rs (fun r _ _ h => h.step r) s hs

theorem Searching.boot (flash : ℕ → Byte) : Searching { State.boot flash with op := .search } :=
  ⟨rfl, rfl, rfl⟩

/-- **The sequence selected and the version in force** after the records. -/
theorem Searching.sequence_version (rs : List StoreRecord) : ∀ {s : State}, Searching s →
    (runRecords m rs s).suInfo.sequence = newestSequence s.suInfo.sequence rs ∧
      (runRecords m rs s).suExec.version =
        versionInForce s.suInfo.sequence s.suExec.version rs := by
  induction rs with
  | nil => exact fun _ => ⟨rfl, rfl⟩
  | cons r rs ih =>
    intro s hs
    rw [runRecords_cons, (ih (hs.step r)).1, (ih (hs.step r)).2]
    cases r with
    | info i =>
      rw [hs.callback_info, newestSequence, versionInForce]
      by_cases hc : ¬ Insane i ∧ i.sequence > s.suInfo.sequence
      · rw [if_pos hc, if_pos hc]
        exact ⟨rfl, rfl⟩
      · rw [if_neg hc, if_neg hc]
        exact ⟨rfl, rfl⟩
    | chunk d =>
      rw [hs.callback_chunk]
      split <;> exact ⟨rfl, rfl⟩
    | exec x =>
      rw [hs.callback_exec, newestSequence, versionInForce]
      · by_cases hc : x.sequence = s.suInfo.sequence
        · rw [if_pos hc, if_pos hc]
          exact ⟨rfl, rfl⟩
        · rw [if_neg hc, if_neg hc]
          exact ⟨rfl, rfl⟩
      · exact fun _ h => by cases h

/-- A chunk found has no bit in the map any more. -/
theorem Searching.has_callback_chunk (hs : Searching s) (hlt : s.suInfo.stop.toNat < mapEnd)
    {d : SuData} (hd : (StoreRecord.chunk d).WellFormed) (k : ℕ) :
    Has (callback m (.chunk d) s).chunks k ↔
      Has s.chunks k ∧ (¬ Foreign s.suInfo d → d.address.toNat / oqSuChunk ≠ k) := by
  rw [hs.callback_chunk]
  by_cases hf : Foreign s.suInfo d
  · rw [if_pos hf]
    simp [hf]
  · obtain ⟨hstart, hstop, hsize⟩ := hs.range
    have hbnd := (not_foreign_iff hd.2.1).1 hf
    rw [if_neg hf, has_mapClear hs.laid (by omega) (by omega), Map.slotOf, hstart, hsize,
      Nat.sub_zero, ne_comm]
    simp [hf]

/-- A chunk sets no bit. -/
theorem Searching.has_of_callback_chunk (hs : Searching s) {d : SuData} {k : ℕ}
    (h : Has (callback m (.chunk d) s).chunks k) : Has s.chunks k := by
  obtain ⟨hstart, hstop, -⟩ := hs.range
  rw [hs.callback_chunk] at h
  split at h
  · exact h
  · by_cases hd : d.address.toNat < mapEnd
    · rw [has_mapClear hs.laid (by omega) (by omega)] at h
      exact h.1
    · rwa [show mapClear s.chunks d.address.toNat = s.chunks from mapClear_of_ge (by omega)] at h

/-- **After the selected header** the header stays, and the map loses the
chunks that are found. -/
theorem Searching.after_header (post : List StoreRecord) : ∀ {s : State}, Searching s →
    (∀ i, .info i ∈ post → ¬ Insane i → i.sequence ≤ s.suInfo.sequence) →
    (∀ r ∈ post, r.WellFormed) →
    (runRecords m post s).suInfo = s.suInfo ∧
      (s.suInfo.stop.toNat < mapEnd → ∀ k, Has (runRecords m post s).chunks k ↔
        Has s.chunks k ∧ ∀ d, .chunk d ∈ post → ¬ Foreign s.suInfo d →
          d.address.toNat / oqSuChunk ≠ k) ∧
      ((∀ k < slotCount, ¬ Has s.chunks k) →
        ∀ k < slotCount, ¬ Has (runRecords m post s).chunks k) := by
  induction post with
  | nil => exact fun _ _ _ => ⟨rfl, fun _ k => by simp [runRecords], fun h => h⟩
  | cons r post ih =>
    intro s hs hle hw
    have hw' : ∀ r' ∈ post, r'.WellFormed := fun r' hr' => hw r' (List.mem_cons_of_mem _ hr')
    have hle' : ∀ i, .info i ∈ post → ¬ Insane i → i.sequence ≤ s.suInfo.sequence :=
      fun i hi => hle i (List.mem_cons_of_mem _ hi)
    rw [runRecords_cons]
    cases r with
    | info i =>
      -- it is no newer
      have hno : ¬ (¬ Insane i ∧ i.sequence > s.suInfo.sequence) := by
        rintro ⟨h₁, h₂⟩
        exact absurd (hle i (List.mem_cons_self ..) h₁) (BitVec.not_le.2 h₂)
      rw [hs.callback_info, if_neg hno]
      simpa using ih hs hle' hw'
    | exec x =>
      have hinfo : (callback m (.exec x) s).suInfo = s.suInfo := by
        rw [hs.callback_exec]; split <;> rfl
      have hchunks : (callback m (.exec x) s).chunks = s.chunks := by
        rw [hs.callback_exec]; split <;> rfl
      have := ih (hs.step (.exec x)) (by rwa [hinfo]) hw'
      rw [hinfo, hchunks] at this
      simpa using this
    | chunk d =>
      have hinfo : (callback m (.chunk d) s).suInfo = s.suInfo := by
        rw [hs.callback_chunk]; split <;> rfl
      have := ih (hs.step (.chunk d)) (by rwa [hinfo]) hw'
      rw [hinfo] at this
      obtain ⟨h₁, h₂, h₃⟩ := this
      refine ⟨h₁, fun hlt k => ?_,
        fun hno => h₃ fun k hk hhas => hno k hk (hs.has_of_callback_chunk hhas)⟩
      rw [h₂ hlt, hs.has_callback_chunk hlt (hw _ List.mem_cons_self), and_assoc]
      simp only [List.mem_cons, StoreRecord.chunk.injEq, or_imp, forall_and, forall_eq]

end Search

/-! ## The search test -/

section Test

variable {m : Comparator} {u : UICR} {flash : ℕ → Byte} {rs pre post : List StoreRecord}
variable {h : SuInfo}

theorem newestSequence_lt {b : Word} (rs : List StoreRecord) : ∀ {q : Word}, q < b →
    (∀ i, .info i ∈ rs → ¬ Insane i → i.sequence < b) → newestSequence q rs < b := by
  induction rs with
  | nil => exact fun hq _ => hq
  | cons r rs ih =>
    intro q hq hb
    have hb' : ∀ i, .info i ∈ rs → ¬ Insane i → i.sequence < b :=
      fun i hi => hb i (List.mem_cons_of_mem _ hi)
    cases r with
    | info i =>
      rw [newestSequence]
      refine ih ?_ hb'
      split
      · exact hb i (List.mem_cons_self ..) (by tauto)
      · exact hq
    | chunk d => exact ih hq hb'
    | exec x => exact ih hq hb'

theorem newestSequence_of_none (rs : List StoreRecord) : ∀ {q : Word},
    (∀ i, .info i ∈ rs → ¬ Insane i → i.sequence ≤ q) → newestSequence q rs = q := by
  induction rs with
  | nil => exact fun _ => rfl
  | cons r rs ih =>
    intro q hb
    have hb' : ∀ i, .info i ∈ rs → ¬ Insane i → i.sequence ≤ q :=
      fun i hi => hb i (List.mem_cons_of_mem _ hi)
    cases r with
    | info i =>
      rw [newestSequence, if_neg]
      · exact ih hb'
      · exact fun ⟨h₁, h₂⟩ => absurd (hb i (List.mem_cons_self ..) h₁) (BitVec.not_le.2 h₂)
    | chunk d => exact ih hb'
    | exec x => exact ih hb'

theorem versionInForce_append (rs rs' : List StoreRecord) : ∀ q v : Word,
    versionInForce q v (rs ++ rs') =
      versionInForce (newestSequence q rs) (versionInForce q v rs) rs' := by
  induction rs with
  | nil => exact fun _ _ => rfl
  | cons r rs ih =>
    intro q v
    cases r with
    | info i => exact ih _ _
    | chunk d => exact ih _ _
    | exec x => exact ih _ _

/-- While no newer header comes, the version in force is that of the last
execute record of the sequence, or the one before if there is none. -/
theorem versionInForce_after {q : Word} (rs : List StoreRecord) : ∀ {v : Word},
    (∀ i, .info i ∈ rs → ¬ Insane i → i.sequence ≤ q) →
    (∃ x, .exec x ∈ rs ∧ x.sequence = q ∧ versionInForce q v rs = x.version) ∨
      ((∀ x, .exec x ∈ rs → x.sequence ≠ q) ∧ versionInForce q v rs = v) := by
  induction rs with
  | nil => exact fun _ => Or.inr ⟨fun x hx => by simp at hx, rfl⟩
  | cons r rs ih =>
    intro v hb
    have hb' : ∀ i, .info i ∈ rs → ¬ Insane i → i.sequence ≤ q :=
      fun i hi => hb i (List.mem_cons_of_mem _ hi)
    have hmem : ∀ {v : Word}, (∃ x, .exec x ∈ rs ∧ x.sequence = q ∧
      versionInForce q v rs = x.version) →
        ∃ x, .exec x ∈ r :: rs ∧ x.sequence = q ∧ versionInForce q v rs = x.version :=
      fun ⟨x, hx, h⟩ => ⟨x, List.mem_cons_of_mem _ hx, h⟩
    cases r with
    | info i =>
      have hno : ¬ (¬ Insane i ∧ i.sequence > q) := fun ⟨h₁, h₂⟩ =>
        absurd (hb i (List.mem_cons_self ..) h₁) (BitVec.not_le.2 h₂)
      rw [versionInForce, if_neg hno]
      exact (ih hb').imp hmem fun ⟨h₁, h₂⟩ => ⟨fun x hx => h₁ x (by simpa using hx), h₂⟩
    | chunk d =>
      rw [versionInForce]
      exact (ih hb').imp hmem fun ⟨h₁, h₂⟩ => ⟨fun x hx => h₁ x (by simpa using hx), h₂⟩
    | exec x =>
      rw [versionInForce]
      by_cases hx : x.sequence = q
      · rw [if_pos hx]
        rcases ih (v := x.version) hb' with h | ⟨-, h⟩
        · exact Or.inl (hmem h)
        · exact Or.inl ⟨x, List.mem_cons_self .., hx, h⟩
      · rw [if_neg hx]
        refine (ih hb').imp hmem fun ⟨h₁, h₂⟩ => ⟨fun y hy => ?_, h₂⟩
        rcases List.mem_cons.1 hy with hy | hy
        · cases hy
          exact hx
        · exact h₁ y hy

/-- The map that a header sets up, once the chunks after it are cleared, is
empty when no chunk is missing. -/
theorem Searching.clear_iff {s : State} (hs : Searching s) (hi : ¬ Insane h)
    (hlt : h.sequence > s.suInfo.sequence)
    (hle : ∀ i, .info i ∈ post → ¬ Insane i → i.sequence ≤ h.sequence)
    (hw : ∀ r ∈ .info h :: post, r.WellFormed) :
    (runRecords m (.info h :: post) s).suInfo = h ∧
      (mapIsClearAll (runRecords m (.info h :: post) s).chunks = true ↔ Complete h post) := by
  have hnext := hs.step (m := m) (.info h)
  rw [runRecords_cons]
  rw [hs.callback_info, if_pos ⟨hi, hlt⟩] at hnext ⊢
  obtain ⟨hinfo, hhas, hnone⟩ := hnext.after_header (m := m) post hle
    fun r hr => hw r (List.mem_cons_of_mem _ hr)
  refine ⟨hinfo, ?_⟩
  have hend := hnext.run (m := m) post
  have hsane := not_insane_iff.1 hi
  have hshape := (shape_mapClearAll s.chunks).trans hs.shape
  obtain ⟨hstart, hlimit, hsize⟩ : _ = 0 ∧ _ = mapEnd ∧ _ = oqSuChunk :=
    Map.range_of_shape hshape
  have hlaid : (mapClearAll s.chunks).Laid := hs.laid.of_shape (shape_mapClearAll _)
  have hclear : ∀ k < slotCount, ¬ Has (mapClearAll s.chunks) k := fun k hk =>
    not_has_mapClearAll hs.laid (by rwa [hs.slots])
  have hcount : slotCount = 4096 ∧ mapEnd = 0x40000 := ⟨rfl, rfl⟩
  rw [mapIsClearAll_iff hend.laid, hend.slots]
  unfold Complete
  change (h.stop.toNat < mapEnd → _) at hhas
  by_cases hstop : h.stop.toNat < mapEnd
  · have hset : ∀ k, k < slotCount →
        (Has (mapSetRange (mapClearAll s.chunks) h.start.toNat h.stop.toNat) k ↔
          h.start.toNat / 64 ≤ k ∧ k < (h.stop.toNat + 63) / 64) := by
      intro k hk
      rw [has_mapSetRange hlaid (by omega) (by omega) (by omega), Map.slotOf, hstart, hsize]
      simp only [hclear k hk, false_or, Nat.sub_zero]
      rfl
    have hw₀ : h.start.toNat % 64 = 0 ∧ h.stop.toNat % 64 = 0 := hw _ (List.mem_cons_self ..)
    constructor
    · intro hall _ a ha h₁ h₂
      have hk : a / 64 < slotCount := by omega
      by_contra hno
      refine hall (a / 64) hk ((hhas hstop _).2 ⟨(hset _ hk).2 (by omega), fun d hd hf heq => ?_⟩)
      have hda : d.address.toNat % 64 = 0 := (hw _ (List.mem_cons_of_mem _ hd)).1
      exact hno ⟨d, hd, hf, by simp only [oqSuChunk] at *; omega⟩
    · intro hall k hk hhas'
      obtain ⟨h₁, h₂⟩ := (hhas hstop k).1 hhas'
      have hr := (hset k hk).1 h₁
      obtain ⟨d, hd, hf, ha⟩ := hall hstop (64 * k) (by simp) (by omega) (by omega)
      exact h₂ d hd hf (by simp only [oqSuChunk]; omega)
  · -- the range is not entered into the map
    refine ⟨fun _ h => absurd h hstop, fun _ => hnone ?_⟩
    rw [State.takeHeader, mapSetRange_of_ge (by omega)]
    exact hclear

/-- **The search pass** on records among which a header is selected. -/
theorem searchPass_selects (flash : ℕ → Byte) (hs : Selects pre h post)
    (hw : ∀ r ∈ pre ++ .info h :: post, r.WellFormed) :
    let s := searchPass (runRecords m (pre ++ .info h :: post)) (State.boot flash)
    s.suInfo = h ∧ (mapIsClearAll s.chunks = true ↔ Complete h post) ∧
      s.suExec.version = versionInForce 0#32 0#32 (pre ++ .info h :: post) := by
  intro s
  have hboot := Searching.boot flash
  have hpre := hboot.run (m := m) pre
  have hseq := (hboot.sequence_version (m := m) pre).1
  have hlt : h.sequence > (runRecords m pre
    { State.boot flash with op := .search }).suInfo.sequence := by
    rw [hseq]
    exact newestSequence_lt pre hs.pos hs.before
  have heq : s = runRecords m (.info h :: post)
      (runRecords m pre { State.boot flash with op := .search }) := runRecords_append _ _ _
  obtain ⟨h₁, h₂⟩ := hpre.clear_iff (m := m) hs.sane hlt hs.after
    fun r hr => hw r (List.mem_append_right _ hr)
  refine ⟨heq ▸ h₁, heq ▸ h₂, ?_⟩
  exact (hboot.sequence_version (m := m) (pre ++ .info h :: post)).2

/-- Without a sane header that has a sequence number the search fails. -/
theorem searchPass_none (hno : ∀ i, .info i ∈ rs → ¬ Insane i → i.sequence = 0#32) :
    (searchPass (runRecords m rs) (State.boot flash)).SearchFails := by
  refine Or.inl ?_
  change (runRecords m rs { State.boot flash with op := .search }).suInfo.sequence = 0#32
  rw [((Searching.boot flash).sequence_version (m := m) rs).1]
  exact newestSequence_of_none rs fun i hi hi' => by
    rw [hno i hi hi']
    exact BitVec.le_refl _

/-- What the search test accepts: a selected header with all the chunks the
map asks for, whose version is in force. -/
structure Applies (pre : List StoreRecord) (h : SuInfo) (post : List StoreRecord) : Prop where
  selects : Selects pre h post
  complete : Complete h post
  version : versionInForce 0#32 0#32 (pre ++ .info h :: post) = h.version

/-- **The search test**, in terms of the records of the store. -/
theorem pastSearch_iff : PastSearch m u flash ↔ ¬ u.Bad ∧
    ∃ pre h post, storeRecords u flash = pre ++ .info h :: post ∧ Applies pre h post := by
  obtain ⟨b, hb⟩ := searchPass_eq m u flash
  have hw := storeRecords_wellFormed u flash
  unfold PastSearch
  rw [hb]
  change _ ∧ ¬ (searchPass (runRecords m (storeRecords u flash)) (State.boot flash)).SearchFails ↔ _
  generalize storeRecords u flash = rs at *
  refine and_congr_right fun _ => ⟨fun hf => ?_, ?_⟩
  · rcases exists_selects rs with hno | ⟨pre, h, post, rfl, hs⟩
    · exact absurd (searchPass_none hno) hf
    · obtain ⟨h₁, h₂, h₃⟩ := searchPass_selects (m := m) flash hs hw
      simp only [State.SearchFails, h₁, h₂, h₃, not_or, Decidable.not_not] at hf
      exact ⟨pre, h, post, rfl, hs, not_not.1 hf.2.1, hf.2.2.symm⟩
  · rintro ⟨pre, h, post, rfl, hs, hc, hv⟩
    obtain ⟨h₁, h₂, h₃⟩ := searchPass_selects (m := m) flash hs hw
    simp only [State.SearchFails, h₁, h₂, h₃, not_or, Decidable.not_not]
    exact ⟨(BitVec.pos_iff_ne_zero _).1 hs.pos, not_not.2 hc, hv.symm⟩

/-- The header `Main` selects is the one between the two parts. -/
theorem selected_eq (hrs : storeRecords u flash = pre ++ .info h :: post)
    (hs : Selects pre h post) :
    selected m u flash = h := by
  obtain ⟨b, hb⟩ := searchPass_eq m u flash
  unfold selected
  rw [hb, hrs]
  exact (searchPass_selects flash hs (hrs ▸ storeRecords_wellFormed u flash)).1

end Test


end Loader

end AntTracer
