import AntTracer.Record.Ring
import AntTracer.Loader.Search

/-!
# Stores that hold given records

A flash image with one record to a page: page `u % N` begins with the sequence
record of number `u + 1`, a record follows, and the rest is erased. Every list
of records that fit their fields is the record list of such a store
(`storeRecords_image`), so what is said of the records of all stores is said
of all lists of records.
-/

namespace AntTracer

namespace Loader

/-- The bytes of a flash that holds the words `page k` from the beginning of
page `k` of the store on, and `code` below the store. -/
def imageOf (start : ℕ) (page : ℕ → List Word) (code : ℕ → Byte) (a : ℕ) : Byte :=
  if a < start then code a
  else
    ((page ((a - start) / flashPage)).getD ((a - start) % flashPage / 4) erasedWord >>>
      (8 * ((a - start) % 4))).setWidth 8

/-- A word is the bytes it is stored as. -/
theorem append_bytes (w : Word) :
    ((w >>> 24).setWidth 8 ++ (w >>> 16).setWidth 8 ++ (w >>> 8).setWidth 8 ++ w.setWidth
    8 : Word) =
      w := by
  apply BitVec.eq_of_getLsbD_eq
  intro i hi
  simp only [BitVec.getLsbD_append, BitVec.getLsbD_setWidth, BitVec.getLsbD_ushiftRight]
  by_cases h₁ : i < 8
  · simp [h₁]
  by_cases h₂ : i - 8 < 8
  · simp [h₁, h₂, show 8 + (i - 8) = i by omega]
  by_cases h₃ : i - 8 - 8 < 8
  · simp [h₁, h₂, h₃, show 16 + (i - 8 - 8) = i by omega]
  · simp [h₁, h₂, h₃, show i - 8 - 8 - 8 < 8 by omega, show 24 + (i - 8 - 8 - 8) = i by omega]

variable {start N lo n : ℕ} {page : ℕ → List Word} {code : ℕ → Byte}

theorem flashWord_imageOf {k i : ℕ} (hi : i < pageWords) :
    flashWord (imageOf start page code) (start + k * (pageWords * 4) + i * 4) =
      (page k).getD i erasedWord := by
  have hbyte : ∀ b < 4, imageOf start page code (start + k * (pageWords * 4) + i * 4 + b) =
      ((page k).getD i erasedWord >>> (8 * b)).setWidth 8 := by
    intro b hb
    unfold imageOf
    rw [if_neg (by omega), show start + k * (pageWords * 4) + i * 4 + b - start =
      k * flashPage + (i * 4 + b) by simp only [pageWords, flashPage]; omega]
    rw [show (k * flashPage + (i * 4 + b)) / flashPage =
      k by simp only [pageWords, flashPage] at *; omega,
      show (k * flashPage + (i * 4 + b)) % flashPage / 4 = i by
        simp only [pageWords, flashPage] at *; omega,
      show (k * flashPage + (i * 4 + b)) % 4 = b by simp only [flashPage] at *; omega]
  rw [flashWord, hbyte 3 (by omega), hbyte 2 (by omega), hbyte 1 (by omega)]
  have := hbyte 0 (by omega)
  rw [Nat.add_zero] at this
  rw [this]
  exact append_bytes _

/-- A sequence record is ignored. -/
theorem decode_sequenceWord (w : Word) : decode [sequenceWord w] = none := by
  simp only [decode, List.getD_cons_zero, recordType_sequenceWord]
  rfl

/-! ## One record to a page -/

/-- The pages of the advances `lo .. lo + n - 1` hold a sequence record and
one record each, and the others are erased. -/
structure OneEach (N lo n : ℕ) (page rec_ : ℕ → List Word) : Prop where
  pos : 0 < n
  le : n ≤ N
  /-- the sequence numbers do not run out -/
  small : lo + n < 2 ^ 26 - 1
  live : ∀ j < n, page ((lo + j) % N) = sequenceWord (pageNumber (lo + j)) :: rec_ j
  blank : ∀ k < N, (∀ j < n, (lo + j) % N ≠ k) → page k = []
  frame : ∀ j < n, Frames.IsFrame IsStart erasedWord bufferSize (rec_ j)

variable {rec_ : ℕ → List Word} {u : UICR}

theorem ne_erased_of_isFrame {f : List Word} (h : Frames.IsFrame IsStart erasedWord bufferSize f) :
    ∀ w ∈ f, w ≠ erasedWord := by
  intro w hw
  cases f with
  | nil => cases hw
  | cons v f =>
    rcases List.mem_cons.1 hw with rfl | hw
    · exact h.head_ne
    · exact ne_erasedWord_of_not_isStart (h.cont_tail w hw)

theorem OneEach.page_cases (h : OneEach N lo n page rec_) {k : ℕ} (hk : k < N) :
    (∃ j < n, (lo + j) % N = k ∧ page k = sequenceWord (pageNumber (lo + j)) :: rec_ j) ∨
      ((∀ j < n, (lo + j) % N ≠ k) ∧ page k = []) := by
  by_cases hj : ∃ j < n, (lo + j) % N = k
  · obtain ⟨j, hj, rfl⟩ := hj
    exact Or.inl ⟨j, hj, rfl, h.live j hj⟩
  · push Not at hj
    exact Or.inr ⟨hj, h.blank k hk hj⟩

/-- The region of a store of `N` pages. -/
structure UICR.Paged (u : UICR) (N : ℕ) : Prop where
  pos : 0 < N
  start_pos : 0 < u.storeStart.toNat
  stop_eq : u.storeEnd.toNat = u.storeStart.toNat + N * flashPage

theorem UICR.Paged.region (h : u.Paged N) : u.region.Paged N :=
  ⟨h.pos, h.start_pos, show 0 < 4 by decide, h.stop_eq⟩

theorem OneEach.holds (h : OneEach N lo n page rec_) (code : ℕ → Byte) {k : ℕ} (hk : k < N) :
    u.region.Holds (flashWord (imageOf u.storeStart.toNat page code)) k (page k) := by
  refine ⟨?_, ?_, fun i hi => flashWord_imageOf hi⟩
  · rcases h.page_cases hk with ⟨j, hj, -, hp⟩ | ⟨-, hp⟩
    · have := (h.frame j hj).length_le
      simp only [hp, List.length_cons, bufferSize, pageWords] at *
      omega
    · simp [hp]
  · intro w hw
    rcases h.page_cases hk with ⟨j, hj, -, hp⟩ | ⟨-, hp⟩
    · rw [hp] at hw
      rcases List.mem_cons.1 hw with rfl | hw
      · have := h.small
        exact sequenceWord_pageNumber_ne (by omega)
      · exact ne_erased_of_isFrame (h.frame j hj) w hw
    · simp [hp] at hw

theorem OneEach.ring (h : OneEach N lo n page rec_) (u : UICR) (code : ℕ → Byte) :
    u.region.Ring N (flashWord (imageOf u.storeStart.toNat page code)) lo (lo + n - 1) := by
  have hpos := h.pos
  have hle := h.le
  have hsmall := h.small
  refine ⟨by omega, by omega, fun v h₁ h₂ => ?_, fun k hk hno => ?_⟩
  · have hlive := h.live (v - lo) (by omega)
    rw [show lo + (v - lo) = v by omega] at hlive
    rw [(h.holds _ (Nat.mod_lt v (by omega))).markOf_eq, hlive, List.findSome?_cons,
      markIn_pageNumber (by omega)]
  · rw [(h.holds _ hk).markOf_eq, h.blank k hk fun j hj => hno (lo + j) (by omega) (by omega)]
    rfl

/-- A page hands on its two records. -/
theorem frames_page {w : Word} {f : List Word}
    (hw : Frames.IsFrame IsStart erasedWord bufferSize [w])
    (hf : Frames.IsFrame IsStart erasedWord bufferSize f) :
    Frames.frames IsStart erasedWord bufferSize none (w :: f ++ [erasedWord]) = [[w], f] ∧
      Frames.pend IsStart erasedWord bufferSize none (w :: f ++ [erasedWord]) = none := by
  obtain ⟨a₁, a₂⟩ := Frames.frames_frame hw none
  obtain ⟨b₁, b₂⟩ := Frames.frames_frame hf (some [w])
  rw [show w :: f ++ [erasedWord] = [w] ++ (f ++ [erasedWord]) from rfl]
  constructor
  · rw [Frames.frames_append, a₁, a₂, Frames.frames_append, b₁, b₂,
      Frames.frames_blank isStart_erasedWord]
    rfl
  · rw [Frames.pend_append, a₂, Frames.pend_append, b₂, Frames.pend_cons,
      Frames.hold_blank isStart_erasedWord, Frames.pend_nil]

theorem OneEach.frames_pagesFrom (h : OneEach N lo n page rec_) (code : ℕ → Byte) (m : ℕ) : ∀ j,
    j + m ≤ n →
    Frames.frames IsStart erasedWord bufferSize none (u.region.pagesFrom N
        (flashWord (imageOf u.storeStart.toNat page code)) (lo + j) m) =
      ((List.range' j m).map fun i => [[sequenceWord (pageNumber (lo + i))], rec_ i]).flatten ∧
    Frames.pend IsStart erasedWord bufferSize none (u.region.pagesFrom N
        (flashWord (imageOf u.storeStart.toNat page code)) (lo + j) m) = none := by
  have hpos := h.pos
  have hle := h.le
  have hsmall := h.small
  induction m with
  | zero => exact fun _ _ => ⟨rfl, rfl⟩
  | succ m ih =>
    intro j hj
    have hlen := (h.frame j (by omega)).length_le
    obtain ⟨ih₁, ih₂⟩ := ih (j + 1) (by omega)
    have hpage := (h.holds (u := u) code (Nat.mod_lt (lo + j) (by omega : 0 < N))).pageStream_eq
    rw [h.live j (by omega), if_pos (by
      simp only [List.length_cons, bufferSize, pageWords] at *; omega)] at hpage
    obtain ⟨h₁, h₂⟩ := frames_page (w := sequenceWord (pageNumber (lo + j)))
      ⟨by simp, isStart_sequenceWord _, sequenceWord_pageNumber_ne (by omega), by simp, by simp⟩
      (h.frame j (by omega))
    rw [Region.pagesFrom, hpage]
    generalize sequenceWord (pageNumber (lo + j)) :: rec_ j ++ [erasedWord] = ws at h₁ h₂
    rw [Frames.frames_append, Frames.pend_append, h₁, h₂, show lo + j + 1 = lo + (j + 1) by omega,
      ih₁, ih₂, List.range'_succ]
    exact ⟨rfl, rfl⟩

/-- **The records of such a store**, in order. -/
theorem storeRecords_image (hu : u.Paged N) (h : OneEach N lo n page rec_) :
    storeRecords u (imageOf u.storeStart.toNat page code) =
      (List.range n).filterMap fun j => decode (rec_ j) := by
  have hpos := h.pos
  obtain ⟨h₁, h₂⟩ := h.frames_pagesFrom (u := u) code n 0 (by omega)
  rw [storeRecords, rawRecords, (h.ring u code).stream_eq hu.region,
    show lo + n - 1 - lo + 1 = n by omega, Frames.frames_append]
  rw [Nat.add_zero] at h₁ h₂
  rw [h₁, h₂, Frames.frames_blank isStart_erasedWord, ← List.range_eq_range']
  have hsmall := h.small
  have hlist : ∀ l : List ℕ, (∀ i ∈ l, i < n) →
      ((l.map fun i => [[sequenceWord (pageNumber (lo + i))], rec_ i]).flatten).filterMap decode =
        l.filterMap fun j => decode (rec_ j) := by
    intro l
    induction l with
    | nil => exact fun _ => rfl
    | cons i l ih =>
      intro hl
      have hi := hl i (List.mem_cons_self ..)
      simp only [List.map_cons, List.flatten_cons, List.filterMap_append,
        ih fun j hj => hl j (List.mem_cons_of_mem _ hj), List.filterMap_cons,
        decode_sequenceWord, List.filterMap_nil]
      cases decode (rec_ i) <;> rfl
  simpa using hlist _ fun i hi => List.mem_range.1 hi

/-! ## A store for a list of records -/

/-- The words a record is written as. -/
def StoreRecord.words : StoreRecord → List Word
  | info i => recordWords rtSuHdr (suInfoFields i) Buffer.init
  | chunk d => recordWords rtSuData (suDataFields d) Buffer.init
  | exec x => recordWords rtSuExec (suExecFields x) Buffer.init

/-- The record fits its fields. -/
def StoreRecord.Fits : StoreRecord → Prop
  | info i => i.Fits
  | chunk d => d.Fits
  | exec x => x.Fits

/-- **What is written is what is read.** -/
theorem StoreRecord.decode_words {r : StoreRecord} (h : r.Fits) : decode r.words = some r := by
  cases r with
  | info i =>
    simp only [words, decode, recordType_recordWords (suInfoFields i) suInfo_room,
      readAs_suInfo h]
    rfl
  | chunk d =>
    have hw := widths_suDataFields (SuData.Fits.length h)
    simp only [words, decode, recordType_recordWords (suDataFields d) (hw ▸ suData_room),
      readAs_suData h]
    rfl
  | exec x =>
    simp only [words, decode, recordType_recordWords (suExecFields x) suExec_room,
      readAs_suExec h]
    rfl

theorem StoreRecord.isFrame_words {r : StoreRecord} (h : r.Fits) :
    Frames.IsFrame IsStart erasedWord bufferSize r.words := by
  cases r with
  | info i => exact isFrame_recordWords (suInfoFields i) suInfo_room (by decide)
  | chunk d =>
    have hw := widths_suDataFields (SuData.Fits.length h)
    exact isFrame_recordWords (suDataFields d) (hw ▸ suData_room) (by decide)
  | exec x => exact isFrame_recordWords (suExecFields x) suExec_room (by decide)

/-- Record `j` in the page of advance `lo + j`, over `N` pages. -/
def pagesOf (N lo : ℕ) (rs : List StoreRecord) (k : ℕ) : List Word :=
  if k < N then
    match rs[(k + N - lo % N) % N]? with
    | some r => sequenceWord (pageNumber (lo + (k + N - lo % N) % N)) :: r.words
    | none => []
  else []

/-- A flash whose store of `N` pages holds these records, one to a page. -/
def storeOf (start N lo : ℕ) (rs : List StoreRecord) (code : ℕ → Byte) : ℕ → Byte :=
  imageOf start (pagesOf N lo rs) code

theorem pagesOf_oneEach {rs : List StoreRecord} (hne : rs ≠ []) (hN : rs.length ≤ N)
    (hlo : lo + N < 2 ^ 26 - 1) (hfits : ∀ r ∈ rs, r.Fits) :
    OneEach N lo rs.length (pagesOf N lo rs) fun j => (rs.getD j (.exec ⟨0#32, 0#32⟩)).words := by
  have hpos : 0 < rs.length := List.length_pos_of_ne_nil hne
  have hlt : lo % N < N := Nat.mod_lt _ (by omega)
  have hback : ∀ j < N, ((lo + j) % N + N - lo % N) % N = j := by
    intro j hj
    have hsum : (lo + j) % N = if lo % N + j < N then lo % N + j else lo % N + j - N := by
      rw [Nat.add_mod, Nat.mod_eq_of_lt hj]
      split
      · exact Nat.mod_eq_of_lt ‹_›
      · rw [Nat.mod_eq_sub_mod (by omega), Nat.mod_eq_of_lt (by omega)]
    rw [hsum]
    split
    · rw [show lo % N + j + N - lo % N = j + N by omega, Nat.add_mod_right, Nat.mod_eq_of_lt hj]
    · rw [show lo % N + j - N + N - lo % N = j by omega, Nat.mod_eq_of_lt hj]
  refine ⟨hpos, hN, by omega, fun j hj => ?_, fun k hk hno => ?_, fun j hj => ?_⟩
  · rw [pagesOf, if_pos (Nat.mod_lt _ (by omega)), hback j (by omega), List.getElem?_eq_getElem hj,
      List.getD_eq_getElem _ _ hj]
  · have hfar : rs.length ≤ (k + N - lo % N) % N := by
      by_contra hc
      refine hno ((k + N - lo % N) % N) (by omega) ?_
      rw [Nat.add_mod, Nat.mod_mod]
      by_cases hk' : lo % N ≤ k
      · rw [show k + N - lo % N = k - lo % N + N by omega, Nat.add_mod_right,
          Nat.mod_eq_of_lt (by omega : k - lo % N < N), show lo % N + (k - lo % N) = k by omega,
          Nat.mod_eq_of_lt hk]
      · rw [Nat.mod_eq_of_lt (by omega : k + N - lo % N < N),
          show lo % N + (k + N - lo % N) = k + N by omega, Nat.add_mod_right, Nat.mod_eq_of_lt hk]
    rw [pagesOf, if_pos hk, List.getElem?_eq_none hfar]
  · simp only [List.getD_eq_getElem _ _ hj]
    exact StoreRecord.isFrame_words (hfits _ (List.getElem_mem _))

/-- **Every list of records is the record list of a store.** -/
theorem storeRecords_storeOf (hu : u.Paged N) {rs : List StoreRecord} (hne : rs ≠ [])
    (hN : rs.length ≤ N) (hlo : lo + N < 2 ^ 26 - 1) (hfits : ∀ r ∈ rs, r.Fits) :
    storeRecords u (storeOf u.storeStart.toNat N lo rs code) = rs := by
  rw [storeOf, storeRecords_image hu (pagesOf_oneEach hne hN hlo hfits)]
  have hget : ∀ j ∈ List.range rs.length, decode (rs.getD j (.exec ⟨0#32, 0#32⟩)).words =
      (some ∘ fun j => rs.getD j (.exec ⟨0#32, 0#32⟩)) j := by
    intro j hj
    have hj := List.mem_range.1 hj
    rw [Function.comp_apply, List.getD_eq_getElem _ _ hj]
    exact StoreRecord.decode_words (hfits _ (List.getElem_mem _))
  rw [List.filterMap_congr hget, List.filterMap_eq_map]
  refine List.ext_getElem (by simp) fun i h₁ h₂ => ?_
  rw [List.getElem_map, List.getElem_range, List.getD_eq_getElem _ _ h₂]

/-! ## The chunks of an update -/

/-- `n` chunks from address `start` on, all with the same bytes. -/
def chunksFrom (sequence : Word) (start n : ℕ) (data : List Byte) : List StoreRecord :=
  (List.range n).map fun i => .chunk ⟨sequence, BitVec.ofNat 32 (start + oqSuChunk * i), data⟩

variable {sequence : Word} {data : List Byte}

theorem chunksFrom_fits (hseq : sequence.toNat < 2 ^ 20) (hstart : start % oqSuChunk = 0)
    (hend : start + oqSuChunk * n ≤ 0x80000) (hdata : data.length = oqSuChunk) :
    ∀ r ∈ chunksFrom sequence start n data, r.Fits := by
  intro r hr
  obtain ⟨i, hi, rfl⟩ := List.mem_map.1 hr
  have hi := List.mem_range.1 hi
  have haddr : (BitVec.ofNat 32 (start + oqSuChunk * i)).toNat = start + oqSuChunk * i := by
    simp only [oqSuChunk] at *
    rw [BitVec.toNat_ofNat, Nat.mod_eq_of_lt (by omega)]
  refine ⟨hseq, ?_, ?_, hdata⟩
  · rw [haddr]
    simp only [oqSuChunk] at *
    omega
  · rw [haddr]
    simp only [oqSuChunk] at *
    omega

theorem mem_chunksFrom {d : SuData} : .chunk d ∈ chunksFrom sequence start n data ↔
    ∃ i < n, d = ⟨sequence, BitVec.ofNat 32 (start + oqSuChunk * i), data⟩ := by
  simp only [chunksFrom, List.mem_map, List.mem_range, StoreRecord.chunk.injEq]
  exact ⟨fun ⟨i, hi, h⟩ => ⟨i, hi, h.symm⟩, fun ⟨i, hi, h⟩ => ⟨i, hi, h.symm⟩⟩

/-- **A header whose chunks follow is complete.** -/
theorem complete_chunksFrom {h : SuInfo} {post : List StoreRecord} (start n : ℕ) (data : List Byte)
    (hstart : h.start.toNat = start) (hmod : start % oqSuChunk = 0)
    (hstop : h.stop.toNat = start + oqSuChunk * n) (hend : h.stop.toNat ≤ 0x80000)
    (hsub : ∀ r ∈ chunksFrom h.sequence start n data, r ∈ post) : Complete h post := by
  intro _ a ha h₁ h₂
  have heq : (BitVec.ofNat 32 (start + oqSuChunk * ((a - start) / oqSuChunk))).toNat = a := by
    simp only [oqSuChunk] at *
    rw [BitVec.toNat_ofNat, Nat.mod_eq_of_lt (by omega)]
    omega
  refine ⟨_, hsub _ (mem_chunksFrom.2 ⟨(a - start) / oqSuChunk, ?_, rfl⟩), ?_, heq⟩
  · simp only [oqSuChunk] at *
    omega
  · simp only [oqSuChunk] at *
    rw [not_foreign_iff (by rw [heq]; omega), heq]
    exact ⟨rfl, by omega, by omega⟩

/-- Chunks change neither the sequence selected nor the version in force. -/
theorem search_of_chunks (rs : List StoreRecord) (hrs : ∀ r ∈ rs, ∃ d, r = .chunk d) :
    (∀ q, newestSequence q rs = q) ∧ ∀ q v, versionInForce q v rs = v := by
  refine ⟨fun q => newestSequence_of_none rs fun i hi _ => ?_, fun q v => ?_⟩
  · obtain ⟨d, hd⟩ := hrs _ hi
    cases hd
  · rcases versionInForce_after (q := q) (v := v) rs (fun i hi _ => by
      obtain ⟨d, hd⟩ := hrs _ hi
      cases hd) with ⟨x, hx, -⟩ | ⟨-, h⟩
    · obtain ⟨d, hd⟩ := hrs _ hx
      cases hd
    · exact h

theorem chunksFrom_chunks {r : StoreRecord} (hr : r ∈ chunksFrom sequence start n data) :
    ∃ d, r = .chunk d := by
  obtain ⟨i, -, rfl⟩ := List.mem_map.1 hr
  exact ⟨_, rfl⟩

/-! ## Stores used as examples -/

/-- The UICR as `uicr2.S` sets it. -/
def uicr₂ : UICR := ⟨0x40000#32, 0x7e000#32⟩

theorem uicr₂_paged : uicr₂.Paged 62 := ⟨by decide, by decide, by decide⟩

/-- A UICR with a larger store. -/
def uicr₀ : UICR := ⟨0x20000#32, 0x7e000#32⟩

theorem uicr₀_paged : uicr₀.Paged 94 := ⟨by decide, by decide, by decide⟩

/-- The chunks of `0x1000 .. 0x2000`, all zero. -/
abbrev zeroChunks (sequence : Word) : List StoreRecord :=
  chunksFrom sequence 0x1000 64 (List.replicate 64 0#8)

/-- An update of one page, complete and executed. -/
def oneUpdate : List StoreRecord :=
  .info ⟨1#32, 5#32, 0x1000#32, 0x2000#32⟩ :: (zeroChunks 1#32 ++ [.exec ⟨1#32, 5#32⟩])

/-- A flash with that update in the store. -/
def oneUpdateFlash (code : ℕ → Byte) : ℕ → Byte := storeOf 0x20000 94 0 oneUpdate code

theorem zeroChunks_fits {sequence : Word} (h : sequence.toNat < 2 ^ 20) :
    ∀ r ∈ zeroChunks sequence, r.Fits :=
  chunksFrom_fits h (by decide) (by decide) (by simp)

theorem storeRecords_oneUpdate (code : ℕ → Byte) :
    storeRecords uicr₀ (oneUpdateFlash code) = oneUpdate := by
  refine storeRecords_storeOf uicr₀_paged (by simp [oneUpdate]) (by simp [oneUpdate, chunksFrom])
    (by decide) fun r hr => ?_
  rcases List.mem_cons.1 hr with rfl | hr
  · exact ⟨by decide, by decide, by decide, by decide, by decide⟩
  rcases List.mem_append.1 hr with hr | hr
  · exact zeroChunks_fits (by decide) r hr
  · obtain rfl := List.mem_singleton.1 hr
    exact ⟨by decide⟩

theorem oneUpdate_applies : Applies [] ⟨1#32, 5#32, 0x1000#32, 0x2000#32⟩
    (zeroChunks 1#32 ++ [.exec ⟨1#32, 5#32⟩]) := by
  have hs : Selects [] ⟨1#32, 5#32, 0x1000#32, 0x2000#32⟩
      (zeroChunks 1#32 ++ [.exec ⟨1#32, 5#32⟩]) :=
    ⟨by decide, by decide, by simp, by simp [chunksFrom]⟩
  refine ⟨hs, complete_chunksFrom _ _ _ (by decide) (by decide) (by decide) (by decide)
    fun r hr => List.mem_append_left _ hr, ?_⟩
  obtain ⟨hnew, hforce⟩ := search_of_chunks (zeroChunks 1#32) fun r hr => chunksFrom_chunks hr
  rw [List.nil_append, versionInForce, if_pos ⟨by decide, by decide⟩, versionInForce_append, hforce]
  change versionInForce (newestSequence 1#32 (zeroChunks 1#32)) 0#32 [.exec ⟨1#32, 5#32⟩] = 5#32
  rw [hnew]
  decide

theorem oneUpdate_past (m : Comparator) (code : ℕ → Byte) :
    PastSearch m uicr₀ (oneUpdateFlash code) :=
  pastSearch_iff.2 ⟨by decide, [], _, _, storeRecords_oneUpdate code, oneUpdate_applies⟩

theorem oneUpdate_selected (m : Comparator) (code : ℕ → Byte) :
    selected m uicr₀ (oneUpdateFlash code) = ⟨1#32, 5#32, 0x1000#32, 0x2000#32⟩ := by
  have hrs : storeRecords uicr₀ (oneUpdateFlash code) =
      [] ++ .info ⟨1#32, 5#32, 0x1000#32, 0x2000#32⟩ :: (zeroChunks 1#32 ++ [.exec ⟨1#32, 5#32⟩]) :=
    storeRecords_oneUpdate code
  exact selected_eq hrs oneUpdate_applies.selects

end Loader

end AntTracer
