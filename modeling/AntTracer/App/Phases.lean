import AntTracer.App.Device
import AntTracer.App.Journal

/-!
# The phases of a write

Between two records the store holds a tape and `wrGo` is idle (`Idle`). While
it is at a record (`Working`), either the page that comes next is being erased,
or the record is being programmed word by word (`Written`). Each call of
`wrGo` and each step of the soft device goes from one of these to another, and
a power loss in any of them leaves a tape (`Working.cut`).
-/

namespace AntTracer

namespace App

/-- No record is being written. -/
structure Idle (s : Log) (t : LogTape) (spare : List Word) : Prop where
  disk : Disk t spare s.flash
  linked : Linked t s.records
  settled : ∀ r ∈ s.records, r.status ≠ .writing
  state : s.wrState = .idle
  needSeq : s.needSeq = false
  tail : s.currentWrite = tailOf t
  sequence : s.sequence = BitVec.ofNat 32 t.hi
  advances : t.hi ≤ s.advances

/-- A record is in the buffer, and none of it is in the flash. -/
structure Begun (s : Log) (t : LogTape) (spare : List Word) (rs : List Appended) (r : Appended) :
    Prop where
  disk : Disk t spare s.flash
  linked : Linked t rs
  settled : ∀ r ∈ rs, r.status ≠ .writing
  records : s.records = rs ++ [r]
  writing : r.status = .writing
  start : r.start = none
  record : IsRecord r.words
  buf : s.buf.words = r.words
  sequence : s.sequence = BitVec.ofNat 32 t.hi
  advances : t.hi ≤ s.advances

/-- `k` words of a record have been programmed. -/
structure Written (s : Log) (t : LogTape) (spare : List Word) (flash : ℕ → Word)
    (rs : List Appended) (r : Appended) (W : List Word) (n k : ℕ) : Prop where
  disk : Disk t spare flash
  linked : Linked t rs
  settled : ∀ r ∈ rs, r.status ≠ .writing
  records : s.records = rs ++ [r]
  writing : r.status = .writing
  start : r.start = some s.currentWrite
  record : IsRecord r.words
  placed : Placed t spare r.words W s.currentWrite n
  le : k ≤ W.length
  flash_eq : s.flash = burn flash s.currentWrite (W.take k)
  buf : s.buf.words = W
  state : s.wrState = .write1
  needSeq : s.needSeq = false
  sequence : s.sequence = BitVec.ofNat 32 n
  advances : n ≤ s.advances

/-- `wrGo` is at a record. -/
inductive Working (s : Log) : Prop
  /-- the page that comes next is being erased -/
  | erasing {t : LogTape} {spare : List Word} {rs : List Appended} {r : Appended}
    (b : Begun s t spare rs r) (more : roomOf t < r.words.length) (state : s.wrState = .erase1)
    (needSeq : s.needSeq = false) (tail : s.currentWrite = tailOf t)
    (op : (∃ done, ErasingOp s (64 + t.hi % storePages) done ∧ (done = true → Cleared t spare)) ∨
      (Cleared t spare ∧ s.sd = none ∧ s.flashComplete = true))
  /-- the record is being programmed -/
  | writing {t : LogTape} {spare : List Word} {flash : ℕ → Word} {rs : List Appended}
    {r : Appended} {W : List Word} {n k : ℕ} (w : Written s t spare flash rs r W n k)
    (op : (∃ j ≤ k, WritingOp s s.currentWrite .buffer W j) ∨
      (k = W.length ∧ s.sd = none ∧ s.flashComplete = true))

/-! ## The soft device -/

section Device

variable {s : Log}

/-- Only the record being written has that status. -/
theorem noteStatus_append {rs : List Appended} (h : ∀ r ∈ rs, r.status ≠ .writing) {r : Appended}
    (hr : r.status = .writing) (status : Status) :
    noteStatus status (rs ++ [r]) = rs ++ [{ r with status := status }] := by
  rw [noteStatus, List.map_append, List.map_cons, List.map_nil, if_pos hr]
  congr 1
  conv_rhs => rw [← List.map_id rs]
  exact List.map_congr_left fun r hr => if_neg (h r hr)

theorem noteStart_append {rs : List Appended} (h : ∀ r ∈ rs, r.status ≠ .writing) {r : Appended}
    (hr : r.status = .writing) (a : ℕ) :
    noteStart a (rs ++ [r]) = rs ++ [{ r with start := some a }] := by
  rw [noteStart, List.map_append, List.map_cons, List.map_nil, if_pos hr]
  congr 1
  conv_rhs => rw [← List.map_id rs]
  exact List.map_congr_left fun r hr => if_neg (h r hr)

theorem noteStatus_settled {rs : List Appended} (h : ∀ r ∈ rs, r.status ≠ .writing)
    (status : Status) : noteStatus status rs = rs := by
  rw [noteStatus]
  conv_rhs => rw [← List.map_id rs]
  exact List.map_congr_left fun r hr => if_neg (h r hr)

theorem settled_noteErased {rs : List Appended} (h : ∀ r ∈ rs, r.status ≠ .writing) (page : ℕ) :
    ∀ r ∈ noteErased page rs, r.status ≠ .writing := by
  intro r hr
  obtain ⟨r₀, hr₀, rfl⟩ := List.mem_map.1 hr
  rw [(noteErased_words page r₀).2.1]
  exact h r₀ hr₀

/-- A record not written yet lies in no page. -/
theorem noteErased_append {rs : List Appended} {r : Appended} (hr : r.start = none) (page : ℕ) :
    noteErased page (rs ++ [r]) = noteErased page rs ++ [r] := by
  rw [noteErased, List.map_append, List.map_cons, List.map_nil, if_neg ?_]
  · rfl
  · rintro ⟨a, ha, -⟩
    rw [hr] at ha
    cases ha

/-- **The erase of the page that comes next.** -/
theorem Begun.erase {t : LogTape} {spare : List Word} {rs : List Appended} {r : Appended}
    (b : Begun s t spare rs r) :
    ∃ t' rs', t'.hi = t.hi ∧ tailOf t' = tailOf t ∧ roomOf t' = roomOf t ∧ Cleared t' [] ∧
      Begun (erasePage (64 + t.hi % storePages) s) t' [] rs' r := by
  have hroom := b.disk.room
  have hrecords : noteErased (64 + t.hi % storePages) s.records =
      noteErased (64 + t.hi % storePages) rs ++ [r] := by
    rw [b.records, noteErased_append b.start]
  have hsettled := settled_noteErased b.settled (64 + t.hi % storePages)
  by_cases hfull : t.hi = t.lo + storePages
  · have hmod : t.hi % storePages = t.lo % storePages := by rw [hfull, Nat.add_mod_right]
    have hlt : t.lo < t.hi := by
      simp only [storePages] at *
      omega
    refine ⟨t.drop, noteErased (64 + t.hi % storePages) rs, rfl, rfl, rfl, ⟨?_, rfl⟩,
      b.disk.erase_oldest hfull, ?_, hsettled, hrecords, b.writing, b.start, b.record, b.buf,
      b.sequence, b.advances⟩
    · simp only [Tape.drop]
      omega
    · rw [hmod]
      exact b.linked.drop hlt
  · exact ⟨t, noteErased (64 + t.hi % storePages) rs, rfl, rfl, rfl, ⟨by omega, rfl⟩,
      b.disk.erase_next (by omega), b.linked.noteErased _, hsettled, hrecords, b.writing, b.start,
      b.record, b.buf, b.sequence, b.advances⟩

theorem Begun.congr {s' : Log} {t : LogTape} {spare : List Word} {rs : List Appended} {r : Appended}
    (b : Begun s t spare rs r) (hflash : s'.flash = s.flash) (hrecords : s'.records = s.records)
    (hbuf : s'.buf = s.buf) (hseq : s'.sequence = s.sequence) (hadv : s'.advances = s.advances) :
    Begun s' t spare rs r :=
  ⟨by rw [hflash]; exact b.disk, b.linked, b.settled, hrecords.trans b.records, b.writing, b.start,
    b.record, by rw [hbuf]; exact b.buf, hseq.trans b.sequence, by rw [hadv]; exact b.advances⟩

/-- **An event of the soft device** while `wrGo` is at a record. -/
theorem Working.step (h : Working s) (e : SdEvent) : Working (sdEvent s e) := by
  cases h with
  | @erasing t spare rs r b more state needSeq tail op =>
    rcases op with ⟨done, op, hdone⟩ | ⟨hc, hsd, hfc⟩
    · obtain ⟨now, sd', fc, tries, heq, hout⟩ := op.step e
      rw [heq]
      cases now with
      | false =>
        simp only [Bool.false_eq_true, if_false, or_false] at hout ⊢
        refine @Working.erasing _ t spare rs r (b.congr rfl rfl rfl rfl rfl) more state
          needSeq tail ?_
        obtain ⟨rfl, done', rfl, hdone'⟩ | ⟨rfl, rfl, hnow⟩ := hout
        · exact Or.inl ⟨done', ⟨rfl, rfl, op.eraseOp, op.writeOp, op.address⟩,
            fun hd => hdone (hdone' hd)⟩
        · exact Or.inr ⟨hdone hnow, rfl, rfl⟩
      | true =>
        simp only [if_true] at hout ⊢
        obtain ⟨t', rs', hhi, htail, hroom, hc, b'⟩ := b.erase
        refine @Working.erasing _ t' [] rs' r (b'.congr rfl rfl rfl rfl rfl)
          (by rw [hroom]; exact more) state needSeq (by rw [htail]; exact tail) ?_
        rw [hhi]
        obtain ⟨rfl, done', rfl, -⟩ | ⟨rfl, rfl, -⟩ := hout
        · exact Or.inl ⟨done', ⟨rfl, rfl, op.eraseOp, op.writeOp, op.address⟩, fun _ => hc⟩
        · exact Or.inr ⟨hc, rfl, rfl⟩
    · rw [sdEvent_of_none hsd]
      exact .erasing b more state needSeq tail (Or.inr ⟨hc, hsd, hfc⟩)
  | @writing t spare flash rs r W n k w op =>
    rcases op with ⟨j, hj, op⟩ | ⟨hk, hsd, hfc⟩
    · obtain ⟨flash', sd', fc, tries, written', heq, hout⟩ := op.step e
      have hb : Burnt s flash s.currentWrite W j k :=
        ⟨w.flash_eq, hj, w.le, fun i hi => w.placed.blank w.disk w.record hi⟩
      rw [heq]
      obtain ⟨rfl, rfl, j', hj', rfl, hflash⟩ | ⟨rfl, rfl, rfl, hflash⟩ := hout
      · obtain ⟨k', h₁, h₂, h₃⟩ := hflash flash k hb
        refine @Working.writing _ t spare flash rs r W n k' ?_ (Or.inl ⟨j', h₁, ?_⟩)
        · exact ⟨w.disk, w.linked, w.settled, w.records, w.writing, w.start, w.record, w.placed, h₂,
            h₃, w.buf, w.state, w.needSeq, w.sequence, w.advances⟩
        · exact ⟨rfl, hj', rfl, op.eraseOp, op.writeOp, op.address, op.source, op.count, op.ram⟩
      · refine @Working.writing _ t spare flash rs r W n W.length ?_ (Or.inr ⟨rfl, rfl, rfl⟩)
        exact ⟨w.disk, w.linked, w.settled, w.records, w.writing, w.start, w.record,
          w.placed, le_rfl,
          by rw [List.take_length]; exact hflash flash k hb, w.buf, w.state, w.needSeq, w.sequence,
          w.advances⟩
    · rw [sdEvent_of_none hsd]
      exact .writing w (Or.inr ⟨hk, hsd, hfc⟩)

end Device

/-! ## `wrGo` -/

theorem words_wrSeq {q : Word} {b : Buffer} (h : b.bufferIndex + 1 < bufferSize) :
    (wrSeq q b).1.words = b.words ++ [sequenceWord (q + 1#32)] ∧ (wrSeq q b).2 = q + 1#32 := by
  rw [wrSeq, if_pos h]
  refine ⟨?_, rfl⟩
  simp only [Buffer.words, List.range_succ (n := b.bufferIndex + 1), List.map_append, List.map_cons,
    List.map_nil, Function.update_self]
  congr 1
  refine List.map_congr_left fun i hi => Function.update_of_ne ?_ _ _
  have := List.mem_range.1 hi
  omega

section Go

variable {s : Log} {t : LogTape} {spare : List Word} {rs : List Appended} {r : Appended}

/-- What a call of `wrGo` leaves to do: the operation it started, or
nothing. -/
def Went (res : Log × Bool) : Prop :=
  (res.2 = true ∧ Working res.1) ∨
    (res.2 = false ∧ res.1.sd = none ∧ ∃ t spare, Idle res.1 t spare)

/-- **The record is handed to the soft device**, with a sequence record if
the tape gets a new page. -/
theorem Begun.write (b : Begun s t spare rs r) (hsd : s.sd = none) (hstate : s.wrState = .write1)
    (hto : (s.needSeq = false ∧ s.currentWrite = tailOf t ∧ r.words.length ≤ roomOf t) ∨
      (s.needSeq = true ∧ s.currentWrite = newStart t ∧ roomOf t < r.words.length ∧
        Cleared t spare)) (cnt : ℕ) :
    Went (wrWrite s.currentWrite cnt s) := by
  have hlen : s.buf.bufferIndex + 1 = r.words.length := by rw [← b.buf, Buffer.length_words]
  have hpos := b.record.length_pos
  have hshort := b.record.short
  obtain ⟨hneed, hptr, hle⟩ | ⟨hneed, hptr, hlt, hc⟩ := hto
  · have hp : Placed t spare r.words r.words s.currentWrite t.hi := hptr ▸ .inPage hle
    have hblank := hp.blank b.disk b.record hpos
    rw [Nat.add_zero] at hblank
    rw [wrWrite, if_neg (not_not.2 hblank), hneed]
    refine Or.inl ⟨rfl, @Working.writing _ t spare s.flash rs
      { r with start := some s.currentWrite } r.words t.hi 0 ?_ (Or.inl ⟨0, le_rfl, ?_⟩)⟩
    · refine ⟨b.disk, b.linked, b.settled, ?_, b.writing, rfl, b.record, hp, Nat.zero_le _, ?_,
        b.buf, hstate, hneed, b.sequence, b.advances⟩
      · change noteStart s.currentWrite s.records = _
        rw [b.records, noteStart_append b.settled b.writing]
      · rw [List.take_zero, burn_nil]
        rfl
    · have hram : (List.range r.words.length).map s.buf.buffer = r.words := by
        rw [← hlen]
        exact b.buf
      have hop := writingOp_flashWrite
        (s := { s with records := noteStart s.currentWrite s.records }) hsd s.currentWrite
          .buffer hram
      rw [← hlen] at hop
      exact hop
  · have hp : Placed t spare r.words (r.words ++ [sequenceWord (pageNumber t.hi)]) s.currentWrite
        (t.hi + 1) := hptr ▸ .turning hlt hc
    have hblank := hp.blank b.disk b.record (i := 0) (by simp)
    rw [Nat.add_zero] at hblank
    obtain ⟨hw, hq⟩ := words_wrSeq (q := s.sequence) (b := s.buf) (by omega)
    have hnum : s.sequence + 1#32 = pageNumber t.hi := by
      rw [b.sequence, pageNumber, BitVec.ofNat_add]
    rw [hnum, b.buf] at hw
    have hlen' : (wrSeq s.sequence s.buf).1.bufferIndex + 1 =
        (r.words ++ [sequenceWord (pageNumber t.hi)]).length := by
      rw [← hw, Buffer.length_words]
    rw [wrWrite, if_neg (not_not.2 hblank), hneed]
    refine Or.inl ⟨rfl, @Working.writing _ t spare s.flash rs
      { r with start := some s.currentWrite } (r.words ++ [sequenceWord (pageNumber t.hi)])
      (t.hi + 1) 0 ?_ (Or.inl ⟨0, le_rfl, ?_⟩)⟩
    · refine ⟨b.disk, b.linked, b.settled, ?_, b.writing, rfl, b.record, hp, Nat.zero_le _, ?_, hw,
        hstate, rfl, hq.trans hnum, Nat.succ_le_succ b.advances⟩
      · change noteStart s.currentWrite s.records = _
        rw [b.records, noteStart_append b.settled b.writing]
      · rw [List.take_zero, burn_nil]
        rfl
    · have hram : (List.range (r.words ++ [sequenceWord (pageNumber t.hi)]).length).map
          (wrSeq s.sequence s.buf).1.buffer = r.words ++ [sequenceWord (pageNumber t.hi)] := by
        rw [← hlen']
        exact hw
      have hop := writingOp_flashWrite
        (s := { wrSequence s with records := noteStart s.currentWrite s.records }) hsd
          s.currentWrite
        .buffer hram
      rw [← hlen'] at hop
      exact hop

/-- The words left in the page of the write pointer, as `wrGo` figures
them. -/
theorem Disk.remain_eq (h : Disk t spare s.flash) :
    (if tailOf t = tailOf t / pageWords * pageWords then 0
      else tailOf t / pageWords * pageWords + pageWords - tailOf t) = roomOf t := by
  by_cases h₀ : t.hi = 0
  · rw [tailOf, roomOf, if_pos h₀, if_pos h₀, if_pos (by decide)]
  · obtain ⟨-, h₁, h₂, h₃⟩ := h.tail_eq h₀
    have hmod := mod_lt (t.hi - 1)
    simp only [pageAt, storeStart, storePages, pageWords] at *
    split <;> omega

/-- The next page, as `wrGo` figures it. -/
theorem Disk.next_eq (h : Disk t spare s.flash) {pe : ℕ}
    (hpe : pe = if tailOf t = tailOf t / pageWords * pageWords then tailOf t / pageWords * pageWords
      else tailOf t / pageWords * pageWords + pageWords) :
    (if pe ≥ storeEnd then storeStart else pe) = pageAt (t.hi % storePages) := by
  by_cases h₀ : t.hi = 0
  · rw [tailOf, if_pos h₀, if_pos (by decide)] at hpe
    rw [hpe, h₀]
    rfl
  · obtain ⟨-, h₁, h₂, h₃⟩ := h.tail_eq h₀
    have hmod := mod_lt (t.hi - 1)
    -- the page behind the newest one
    have hnext : pe = pageAt ((t.hi - 1) % storePages) + pageWords := by
      rw [hpe]
      simp only [pageAt, storeStart, storePages, pageWords] at *
      split <;> omega
    have hmod' : t.hi % storePages = if (t.hi - 1) % storePages = 61 then 0
        else (t.hi - 1) % storePages + 1 := by
      simp only [storePages]
      split <;> omega
    clear hpe h₁ h₂ h₃
    rw [hnext, hmod']
    simp only [pageAt, storeStart, storeEnd, storePages, pageWords] at *
    split <;> split <;> omega

/-- Whether `wrGo` discards the rest of the page. -/
theorem Disk.newStart_eq (h : Disk t spare s.flash) :
    (if tailOf t > pageAt (t.hi % storePages) then pageAt (t.hi % storePages) else tailOf t) =
      newStart t := by
  have hadd := h.newStart_add
  unfold newStart firstPart at *
  by_cases h₀ : t.hi % storePages = 0
  · rw [if_pos h₀] at hadd ⊢
    rw [h₀]
    by_cases h₁ : t.hi = 0
    · rw [tailOf, if_pos h₁]
      rfl
    · obtain ⟨-, h₂, -, h₃⟩ := h.tail_eq h₁
      rw [if_pos (by simp only [pageAt, storeStart, pageWords] at *; omega)]
      rfl
  · rw [if_neg h₀, if_neg h₀] at hadd
    rw [if_neg h₀, if_neg (by omega)]

/-- The page that comes next is erased when its first word is. -/
theorem Disk.cleared (h : Disk t spare flash₀)
    (hblank : flash₀ (pageAt (t.hi % storePages)) = erasedWord) :
    Cleared t spare := by
  have hroom := h.room
  by_cases hfull : t.hi = t.lo + storePages
  · -- the oldest page is not erased
    exfalso
    have hmod : t.hi % storePages = t.lo % storePages := by rw [hfull, Nat.add_mod_right]
    have hlt : t.lo < t.hi := by
      simp only [storePages] at *
      omega
    have hholds := h.holds t.lo le_rfl hlt
    have hne := h.cells_ne le_rfl hlt
    have hword := holds_word hholds (i := 0) (by decide)
    rw [Nat.add_zero, ← hmod, hblank,
      List.getD_eq_getElem _ _ (List.length_pos_of_ne_nil hne)] at hword
    exact hholds.ne_erased _ (List.getElem_mem _) hword.symm
  · refine ⟨by omega, ?_⟩
    have hholds := h.next (by omega)
    have hword := holds_word hholds (i := 0) (by decide)
    rw [Nat.add_zero, hblank] at hword
    rcases spare with _ | ⟨w, ws⟩
    · rfl
    · exact absurd hword.symm (hholds.ne_erased w (List.mem_cons_self ..))

/-- **The label `erase` of `wrGo`**: an erase if the next page is needed and
not erased yet, else the write. -/
theorem Begun.find (b : Begun s t spare rs r) (hsd : s.sd = none)
    (hstate : s.wrState = .erase1 ∨ Cleared t spare) (hneed : s.needSeq = false)
    (htail : s.currentWrite = tailOf t) {pe remain cnt : ℕ}
    (hpe : pe = if tailOf t = tailOf t / pageWords * pageWords then tailOf t / pageWords * pageWords
      else tailOf t / pageWords * pageWords + pageWords) (hremain : remain = roomOf t)
    (hcnt : cnt = r.words.length) : Went (wrErase s.currentWrite pe remain cnt s) := by
  rw [wrErase, hremain, hcnt]
  by_cases hmore : r.words.length > roomOf t
  · rw [if_pos hmore]
    simp only [b.disk.next_eq hpe]
    by_cases hblank : s.flash (pageAt (t.hi % storePages)) = erasedWord
    · have hc := b.disk.cleared hblank
      have hstart := b.disk.newStart_eq
      rw [if_neg (not_not.2 hblank), htail]
      by_cases hgt : tailOf t > pageAt (t.hi % storePages)
      · rw [if_pos hgt] at hstart ⊢
        exact Begun.write
          (s := { s with
            currentWrite := pageAt (t.hi % storePages)
            needSeq := true
            wrState := .write1 })
          (b.congr rfl rfl rfl rfl rfl) hsd rfl (Or.inr ⟨rfl, hstart, hmore, hc⟩) _
      · rw [if_neg hgt] at hstart ⊢
        have := Begun.write (s := { s with needSeq := true, wrState := .write1 })
          (b.congr rfl rfl rfl rfl rfl) hsd rfl (Or.inr ⟨rfl, htail.trans hstart, hmore, hc⟩)
          r.words.length
        rwa [show ({ s with needSeq := true, wrState := .write1 } : Log).currentWrite =
          tailOf t from
          htail] at this
    · rw [if_pos hblank]
      have hstate₁ : s.wrState = .erase1 := by
        refine hstate.resolve_right fun hc => hblank ?_
        obtain ⟨hnext, rfl⟩ := hc
        exact holds_nil_iff.1 (b.disk.next hnext) 0 (by decide)
      refine Or.inl ⟨rfl, @Working.erasing _ t spare rs r
        (b.congr rfl rfl rfl rfl rfl) hmore hstate₁ hneed htail (Or.inl ⟨false, ?_, nofun⟩)⟩
      have hop := erasingOp_flashErase hsd (pageAt (t.hi % storePages))
      rwa [show pageAt (t.hi % storePages) / pageWords = 64 + t.hi % storePages by
        simp only [pageAt, storeStart, pageWords]; omega] at hop
  · rw [if_neg hmore]
    exact Begun.write (s := { s with wrState := .write1 }) (b.congr rfl rfl rfl rfl rfl) hsd rfl
      (Or.inl ⟨hneed, htail, by omega⟩) _

/-- **A new record.** -/
theorem Idle.append (h : Idle s t spare) (hsd : s.sd = none) {ty : Word} {fs : List (ℕ × Word)}
    (hrec : IsRecord (recordWords ty fs s.buf)) : Went (appendRecord ty fs s) := by
  have hshort := hrec.short
  have hlen : (wrFields fs (wrNew ty s.buf)).bufferIndex + 1 =
    (recordWords ty fs s.buf).length := by
    rw [recordWords, Buffer.length_words]
  rw [appendRecord, wrGo, h.state]
  simp only
  rw [if_neg (by omega), h.tail]
  have b : Begun { s with
      buf := wrFields fs (wrNew ty s.buf)
      records := s.records ++ [⟨(wrFields fs (wrNew ty s.buf)).words, none, .writing, false⟩]
      wrState := .erase1 } t spare s.records ⟨recordWords ty fs s.buf, none, .writing, false⟩ :=
    ⟨h.disk, h.linked, h.settled, rfl, rfl, rfl, hrec, rfl, h.sequence, h.advances⟩
  have := b.find hsd (Or.inl rfl) h.needSeq h.tail rfl b.disk.remain_eq hlen
  simpa only [h.tail] using this

/-- **A further call of `wrGo`**, when the operation has been reported. -/
theorem Working.go (h : Working s) (hfc : s.flashComplete = true) (hadv : s.advances < 2 ^ 26 - 1) :
    Went (wrGo s) := by
  cases h with
  | @erasing t spare rs r b more state needSeq tail op =>
    rcases op with ⟨done, op, -⟩ | ⟨hc, hsd, -⟩
    · have hfc' := op.complete
      rw [hfc] at hfc'
      cases hfc'
    · have hlen : s.buf.bufferIndex + 1 = r.words.length := by rw [← b.buf, Buffer.length_words]
      rw [wrGo, state]
      simp only
      have := Begun.find (s := { s with wrState := .erase2 }) (b.congr rfl rfl rfl rfl rfl) hsd
        (Or.inr hc) needSeq tail rfl b.disk.remain_eq hlen
      simpa only [tail] using this
  | @writing t spare flash rs r W n k w op =>
    rcases op with ⟨j, -, op⟩ | ⟨rfl, hsd, -⟩
    · have hfc' := op.complete
      rw [hfc] at hfc'
      cases hfc'
    · have hlen : s.buf.bufferIndex + 1 = W.length := by rw [← w.buf, Buffer.length_words]
      obtain ⟨t', spare', hhi, htail, hdisk, hlinked⟩ := Placed.done
        (r := { r with status := .completed }) w.placed w.disk w.linked w.record
        (by have := w.advances; omega) (Or.inl rfl) w.start
      have hflash : s.flash = burn flash s.currentWrite W := by
        rw [w.flash_eq, List.take_length]
      -- the first word is there
      have hfirst : s.flash s.currentWrite ≠ erasedWord := by
        rw [hflash]
        exact w.placed.first_ne w.record
      rw [wrGo, w.state]
      simp only
      rw [wrWrite, if_pos hfirst, hlen]
      refine Or.inr ⟨rfl, hsd, t', spare', ?_⟩
      have hrecords : noteStatus .completed s.records =
        rs ++ [{ r with status := .completed }] := by
        rw [w.records, noteStatus_append w.settled w.writing]
      refine ⟨?_, ?_, ?_, rfl, w.needSeq, htail.symm, ?_, ?_⟩
      · change Disk t' spare' s.flash
        rw [hflash]
        exact hdisk
      · change Linked t' (noteStatus .completed s.records)
        rw [hrecords]
        exact hlinked
      · change ∀ r ∈ noteStatus .completed s.records, r.status ≠ .writing
        rw [hrecords]
        intro r' hr'
        rcases List.mem_append.1 hr' with hr' | hr'
        · exact w.settled r' hr'
        · obtain rfl := List.mem_singleton.1 hr'
          simp
      · change s.sequence = _
        rw [hhi]
        exact w.sequence
      · change _ ≤ s.advances
        rw [hhi]
        exact w.advances

/-- **A power loss while `wrGo` is at a record** leaves a tape. -/
theorem Working.cut (h : Working s) (hadv : s.advances < 2 ^ 26 - 1) :
    ∃ t spare, Disk t spare s.flash ∧ Linked t (noteStatus .cut s.records) ∧ t.hi ≤ s.advances := by
  cases h with
  | @erasing t spare rs r b more state needSeq tail op =>
    refine ⟨t, spare, b.disk, ?_, b.advances⟩
    rw [b.records, noteStatus_append b.settled b.writing]
    refine b.linked.lost (by simp) fun a ha => ?_
    rw [show ({ r with status := .cut } : Appended).start = r.start from rfl, b.start] at ha
    cases ha
  | @writing t spare flash rs r W n k w op =>
    rw [w.records, noteStatus_append w.settled w.writing, w.flash_eq]
    have hn := w.advances
    rcases Nat.lt_or_ge k W.length with hk | hk
    · have hwithin := w.placed.within w.disk w.record
      obtain ⟨t', spare', hhi, hdisk, hlinked⟩ := Placed.cut (r := { r with status := .cut })
        w.placed w.disk w.linked w.record (by simp) (fun a ha => by
          obtain rfl := Option.some.inj (w.start.symm.trans ha)
          exact hwithin) hk
      have hle := w.placed.words_prefix.2
      exact ⟨t', spare', hdisk, hlinked, by omega⟩
    · rw [List.take_of_length_le hk]
      obtain ⟨t', spare', hhi, -, hdisk, hlinked⟩ := Placed.done (r := { r with status := .cut })
        w.placed w.disk w.linked w.record (by omega) (Or.inr rfl) w.start
      exact ⟨t', spare', hdisk, hlinked, by omega⟩

end Go

end App

end AntTracer
