import AntTracer.Record.Pack
import AntTracer.Library.Frames

/-!
# Reading the circular store

`importWord`, `importReset` and `readFlash`, which the application and the
boot loader share word for word. They differ in `importRecord` alone, so the
reader is a parameter (`Reader`): where its record buffer is, how a flash
word is read, and what it does with a finished record.

The words `readFlash` feeds to `importWord` are a function of the flash
(`stream`), and the records it hands to `importRecord` are the frames of
that stream. `readFlash_sim` says so for a reader whose callbacks may write
to flash, as long as they leave the store alone.
-/

namespace AntTracer

/-- A record reader over a state `σ`. -/
structure Reader (σ : Type) where
  /-- the record buffer -/
  buf : σ → Buffer
  /-- and the state with another one -/
  setBuf : σ → Buffer → σ
  /-- the flash word at an address -/
  word : σ → ℕ → Word
  /-- what is done with the record in the buffer -/
  importRecord : σ → σ
  buf_setBuf : ∀ s b, buf (setBuf s b) = b
  setBuf_setBuf : ∀ s b b', setBuf (setBuf s b) b' = setBuf s b'
  setBuf_buf : ∀ s, setBuf s (buf s) = s
  word_setBuf : ∀ s b, word (setBuf s b) = word s

/-- A region of whole pages: its bounds, and the address step from one word
to the next. -/
structure Region where
  /-- the first address -/
  start : ℕ
  /-- the address beyond the last -/
  stop : ℕ
  /-- addresses per word -/
  stride : ℕ

/-- `OQ_FLASH_PAGE / sizeof (u32)`. -/
abbrev pageWords : ℕ := 1024

/-- The address step from one page to the next. -/
abbrev Region.pageStep (g : Region) : ℕ := pageWords * g.stride

/-- The page to go on with: past the end the region starts over. -/
def Region.wrap (g : Region) (page : ℕ) : ℕ := if page ≥ g.stop then g.start else page

/-- Enough rounds for a loop over the pages of a region. -/
abbrev Region.rounds (g : Region) : ℕ := (g.stop - g.start) / g.pageStep + 1

section Source

variable {σ : Type} (R : Reader σ) (g : Region)

/-- Add a word to the record being collected. -/
def importWord (record : Word) (s : σ) : σ :=
  if record &&& recordBit ≠ 0#32 then
    let s := if (R.buf s).bufferIndex < bufferSize then R.importRecord s else s
    if record = erasedWord then
      R.setBuf s { R.buf s with bufferIndex := bufferSize }
    else
      R.setBuf s { R.buf s with
        buffer := Function.update (R.buf s).buffer 0 record
        bufferIndex := 0 }
  else if (R.buf s).bufferIndex < bufferSize - 1 then
    R.setBuf s { R.buf s with
      buffer := Function.update (R.buf s).buffer ((R.buf s).bufferIndex + 1) record
      bufferIndex := (R.buf s).bufferIndex + 1 }
  else s

/-- Leave the buffer empty. -/
def importReset (s : σ) : σ := R.setBuf s { R.buf s with bufferIndex := bufferSize }

/-- The sequence number in a page, looked for from `rp` on over `n` words. -/
def scanPage (word : ℕ → Word) (stride : ℕ) : ℕ → ℕ → Option ℕ
  | 0, _ => none
  | n + 1, rp =>
    let rec_ := word rp
    if rec_ = erasedWord then none
    else if ¬ rec_ &&& recordBit ≠ 0#32 then scanPage word stride n (rp + stride)
    else if recordType rec_ = rtSequence then some (rec_ &&& rdMask).toNat
    else scanPage word stride n (rp + stride)

/-- `oldp`, `oldq`, `newp` and `newq` of the source. -/
structure Bounds where
  oldp : ℕ
  oldq : ℕ
  newp : ℕ
  newq : ℕ
  deriving DecidableEq

/-- The bounds before the first page. -/
def Bounds.init : Bounds := ⟨0, 0xffffffff, 0, 0⟩

/-- Take account of a page's sequence number. -/
def Bounds.note (b : Bounds) (page : ℕ) : Option ℕ → Bounds
  | none => b
  | some seq =>
    let b := if seq < b.oldq then { b with oldq := seq, oldp := page } else b
    if seq > b.newq then { b with newq := seq, newp := page } else b

/-- Scan the pages from `page` on. -/
def scanPages (word : ℕ → Word) : ℕ → ℕ → Bounds → Bounds
  | 0, _, b => b
  | n + 1, page, b =>
    if page < g.stop then
      scanPages word n (page + g.pageStep) (b.note page (scanPage word g.stride pageWords page))
    else b

/-- The oldest and the newest used page. -/
def findBounds (word : ℕ → Word) : Bounds := scanPages g word g.rounds g.start Bounds.init

/-- Import the words of a page, from `rp` on over `n` words. -/
def importPage : ℕ → ℕ → σ → σ
  | 0, _, s => s
  | n + 1, rp, s =>
    let rec_ := R.word s rp
    let s := importWord R rec_ s
    if rec_ = erasedWord then s else importPage n (rp + g.stride) s

/-- Import all pages from `page` to `newp`. -/
def importPages (newp : ℕ) : ℕ → ℕ → σ → σ
  | 0, _, s => s
  | n + 1, page, s =>
    let page := g.wrap page
    let s := importPage R g pageWords page s
    if page = newp then importWord R erasedWord s
    else importPages newp n (page + g.pageStep) s

/-- The address beyond the last word in use, of the `n` words from `newp`
on. -/
def backScan (word : ℕ → Word) (newp : ℕ) : ℕ → ℕ
  | 0 => newp
  | n + 1 =>
    if word (newp + n * g.stride) ≠ erasedWord then newp + (n + 1) * g.stride
    else backScan word newp n

/-- Read the entire flash storage. The result is the state, and the
candidates for the write pointer and the sequence number. -/
def readFlash (s : σ) : σ × ℕ × ℕ :=
  let b := findBounds g (R.word s)
  if b.newp ≠ 0 then
    let s := importReset R s
    let s := importPages R g b.newp g.rounds b.oldp s
    (s, backScan g (R.word s) b.newp pageWords, b.newq)
  else (s, 0, 0)

end Source

/-! ## The stream of words -/

section Stream

variable (g : Region) (word : ℕ → Word)

/-- The words `importPage` feeds. -/
def pageStream : ℕ → ℕ → List Word
  | 0, _ => []
  | n + 1, rp =>
    if word rp = erasedWord then [word rp] else word rp :: pageStream n (rp + g.stride)

/-- The words `importPages` feeds. -/
def pagesStream (newp : ℕ) : ℕ → ℕ → List Word
  | 0, _ => []
  | n + 1, page =>
    let page := g.wrap page
    pageStream g word pageWords page ++
      if page = newp then [erasedWord] else pagesStream newp n (page + g.pageStep)

/-- The words `readFlash` feeds. -/
def stream : List Word :=
  let b := findBounds g word
  if b.newp ≠ 0 then pagesStream g word b.newp g.rounds b.oldp else []

/-- The raw records `readFlash` hands to `importRecord`. -/
def rawRecords : List (List Word) :=
    Frames.frames IsStart erasedWord bufferSize none (stream g word)

end Stream

/-! ## Records as frames -/

/-- The buffer holds exactly these words; an index beyond the array means
that it holds none. -/
def Buffer.Holds (b : Buffer) : Option (List Word) → Prop
  | none => b.bufferIndex = bufferSize
  | some l => l.length = b.bufferIndex + 1 ∧ l.length ≤ bufferSize ∧
      ∀ i, (h : i < l.length) → b.buffer i = l[i]

/-- What a reader does with a record depends on its words alone. -/
structure Reader.Delivers {σ : Type} (R : Reader σ) (deliver : List Word → σ → σ) : Prop where
  /-- `importRecord` delivers the words in the buffer -/
  importRecord_eq : ∀ s l, (R.buf s).Holds (some l) →
    ∃ b, R.importRecord s = R.setBuf (deliver l s) b
  /-- and delivery looks at nothing else of the buffer -/
  deliver_setBuf : ∀ l s b, deliver l (R.setBuf s b) = R.setBuf (deliver l s) b

variable {σ : Type} {R : Reader σ} {deliver : List Word → σ → σ} {g : Region}

theorem holds_singleton (b : Buffer) (w : Word) :
    Buffer.Holds { b with buffer := Function.update b.buffer 0 w, bufferIndex := 0 }
      (some [w]) := by
  refine ⟨rfl, by simp, fun i h => ?_⟩
  obtain rfl : i = 0 := by simpa using h
  simp

theorem holds_snoc {b : Buffer} {l : List Word} (h : b.Holds (some l)) (w : Word)
    (hlt : b.bufferIndex < bufferSize - 1) :
    Buffer.Holds { b with
      buffer := Function.update b.buffer (b.bufferIndex + 1) w
      bufferIndex := b.bufferIndex + 1 } (some (l ++ [w])) := by
  obtain ⟨hlen, hle, hw⟩ := h
  refine ⟨by simp [hlen], by simp only
    [List.length_append, List.length_singleton, bufferSize] at *; omega, fun i hi => ?_⟩
  simp only [List.length_append, List.length_singleton] at hi
  by_cases hi' : i < l.length
  · simp only
    rw [Function.update_of_ne (by omega), List.getElem_append_left hi']
    exact hw i hi'
  · obtain rfl : i = b.bufferIndex + 1 := by omega
    simp only [Function.update_self]
    rw [List.getElem_append_right (by omega)]
    simp

/-- **What `importWord` does**, up to the buffer: it delivers what a start
word ends, and goes on collecting. -/
theorem importWord_spec (hd : R.Delivers deliver) {s : σ} {p : Option (List Word)}
    (hp : (R.buf s).Holds p) (w : Word) :
    ∃ b, importWord R w s =
        R.setBuf ((Frames.handOn IsStart p w).foldl (fun s l => deliver l s) s) b ∧
      b.Holds (Frames.hold IsStart erasedWord bufferSize p w) := by
  by_cases hs : IsStart w
  · have hs' : w &&& recordBit ≠ 0#32 := hs
    -- the record in progress is delivered, if there is one
    have hrec : ∃ b, (if (R.buf s).bufferIndex < bufferSize then R.importRecord s else s) =
        R.setBuf (p.toList.foldl (fun s l => deliver l s) s) b := by
      cases p with
      | none =>
        refine ⟨R.buf s, ?_⟩
        rw [if_neg (by rw [show (R.buf s).bufferIndex = bufferSize from hp]; exact lt_irrefl _)]
        exact (R.setBuf_buf s).symm
      | some l =>
        have hlen := hp.1
        have hle := hp.2.1
        rw [if_pos (by omega)]
        exact hd.importRecord_eq s l hp
    obtain ⟨b, hb⟩ := hrec
    simp only [importWord, if_pos hs', hb, Frames.handOn, if_pos hs, Frames.hold, R.buf_setBuf,
      R.setBuf_setBuf]
    by_cases he : w = erasedWord
    · simp only [he, if_true]
      exact ⟨_, rfl, rfl⟩
    · simp only [he, if_false]
      exact ⟨_, rfl, holds_singleton b w⟩
  · have hs' : ¬ w &&& recordBit ≠ 0#32 := hs
    simp only [importWord, if_neg hs', Frames.handOn, if_neg hs, Frames.hold, List.foldl_nil]
    cases p with
    | none =>
      rw [if_neg (by rw [show (R.buf s).bufferIndex = bufferSize from hp]; decide)]
      exact ⟨R.buf s, (R.setBuf_buf s).symm, hp⟩
    | some l =>
      obtain ⟨hlen, hle, hw⟩ := hp
      by_cases hlt : (R.buf s).bufferIndex < bufferSize - 1
      · rw [if_pos hlt]
        refine ⟨_, rfl, ?_⟩
        simp only [Option.map_some]
        rw [if_pos (by simp only [bufferSize] at *; omega)]
        exact holds_snoc ⟨hlen, hle, hw⟩ w hlt
      · rw [if_neg hlt]
        refine ⟨R.buf s, (R.setBuf_buf s).symm, ?_⟩
        simp only [Option.map_some]
        rw [if_neg (by simp only [bufferSize] at *; omega)]
        exact ⟨hlen, hle, hw⟩

/-- Any buffer in use holds some record. -/
theorem exists_holds {b : Buffer} (h : b.bufferIndex < bufferSize) : ∃ l, b.Holds (some l) :=
  ⟨List.ofFn fun i : Fin (b.bufferIndex + 1) => b.buffer i, List.length_ofFn, by simpa using h,
    fun i _ => by rw [List.getElem_ofFn]⟩

/-- Delivery of a list of records. -/
abbrev deliverAll (deliver : List Word → σ → σ) (fs : List (List Word)) (s : σ) : σ :=
  fs.foldl (fun s l => deliver l s) s

theorem deliverAll_append (fs gs : List (List Word)) (s : σ) :
    deliverAll deliver (fs ++ gs) s = deliverAll deliver gs (deliverAll deliver fs s) :=
  List.foldl_append

theorem deliverAll_setBuf (hd : R.Delivers deliver) (fs : List (List Word)) :
    ∀ (s : σ) (b : Buffer),
    deliverAll deliver fs (R.setBuf s b) = R.setBuf (deliverAll deliver fs s) b := by
  induction fs with
  | nil => exact fun _ _ => rfl
  | cons f fs ih =>
    intro s b
    rw [deliverAll, List.foldl_cons, hd.deliver_setBuf]
    exact ih _ _

/-- Import a list of words. -/
def importWords (R : Reader σ) (ws : List Word) (s : σ) :
    σ := ws.foldl (fun s w => importWord R w s) s

/-- **What importing words does**: it delivers the frames of the stream. -/
theorem importWords_spec (hd : R.Delivers deliver) (ws : List Word) :
    ∀ {s : σ} {p : Option (List Word)}, (R.buf s).Holds p →
    ∃ b, importWords R ws s =
        R.setBuf (deliverAll deliver (Frames.frames IsStart erasedWord bufferSize p ws) s) b ∧
      b.Holds (Frames.pend IsStart erasedWord bufferSize p ws) := by
  induction ws with
  | nil => exact fun {s p} hp => ⟨R.buf s, (R.setBuf_buf s).symm, hp⟩
  | cons w ws ih =>
    intro s p hp
    obtain ⟨b, hb, hhold⟩ := importWord_spec hd hp w
    obtain ⟨b', hb', hpend⟩ := ih (s := importWord R w s)
      (p := Frames.hold IsStart erasedWord bufferSize p w) (by rw [hb, R.buf_setBuf]; exact hhold)
    refine ⟨b', ?_, hpend⟩
    rw [importWords, List.foldl_cons, ← importWords, hb', hb, deliverAll_setBuf hd, R.setBuf_setBuf,
      Frames.frames, deliverAll_append]

/-- A reader that also notes something of the state each record leaves. -/
def Reader.noting {ν : Type} (R : Reader σ) (f : σ → List ν) : Reader (σ × List ν) where
  buf p := R.buf p.1
  setBuf p b := (R.setBuf p.1 b, p.2)
  word p := R.word p.1
  importRecord p := (R.importRecord p.1, p.2 ++ f (R.importRecord p.1))
  buf_setBuf _ _ := R.buf_setBuf _ _
  setBuf_setBuf _ _ _ := by rw [R.setBuf_setBuf]
  setBuf_buf _ := by rw [R.setBuf_buf]
  word_setBuf _ _ := R.word_setBuf _ _

/-- What is noted may only depend on the record's words. -/
theorem Reader.Delivers.noting {ν : Type} (hd : R.Delivers deliver) {f : σ → List ν}
    {g : List Word → List ν}
    (hf : ∀ s l, (R.buf s).Holds (some l) → f (R.importRecord s) = g l) :
    (R.noting f).Delivers fun l p => (deliver l p.1, p.2 ++ g l) where
  importRecord_eq p l hl := by
    obtain ⟨b, hb⟩ := hd.importRecord_eq p.1 l hl
    refine ⟨b, ?_⟩
    simp only [Reader.noting, hf p.1 l hl]
    rw [hb]
  deliver_setBuf l p b := by simp only [Reader.noting, hd.deliver_setBuf]

theorem deliverAll_noting {ν : Type} {g : List Word → List ν} (fs : List (List Word)) :
    ∀ p : σ × List ν, deliverAll (fun l p => (deliver l p.1, p.2 ++ g l)) fs p =
      (deliverAll deliver fs p.1, p.2 ++ fs.flatMap g) := by
  induction fs with
  | nil => intro p; simp [deliverAll]
  | cons f fs ih =>
    intro p
    rw [deliverAll, List.foldl_cons, ← deliverAll, ih]
    simp [deliverAll]

/-! ## Reading while the callbacks write -/

/-- What a reader relies on while its callbacks write to flash: until
something goes wrong (`¬ Good`, which is final) the store reads `word₀`. -/
structure Reader.Keeps (R : Reader σ) (deliver : List Word → σ → σ) (first : ℕ)
    (word₀ : ℕ → Word) (Good J : σ → Prop) : Prop where
  /-- in a good state the store is intact -/
  word_eq : ∀ s, J s → Good s → ∀ a, first ≤ a → R.word s a = word₀ a
  /-- the standing invariant is kept by every delivery -/
  inv_deliver : ∀ s l, J s → J (deliver l s)
  /-- what has gone wrong stays wrong -/
  bad_deliver : ∀ s l, ¬ Good s → ¬ Good (deliver l s)
  inv_setBuf : ∀ s b, J (R.setBuf s b) ↔ J s
  good_setBuf : ∀ s b, Good (R.setBuf s b) ↔ Good s

variable {first : ℕ} {word₀ : ℕ → Word} {Good J : σ → Prop}

theorem inv_deliverAll (hk : R.Keeps deliver first word₀ Good J) (fs : List (List Word)) :
    ∀ s : σ, J s → J (deliverAll deliver fs s) := by
  induction fs with
  | nil => exact fun _ h => h
  | cons f fs ih => exact fun s h => ih _ (hk.inv_deliver s f h)

theorem bad_deliverAll (hk : R.Keeps deliver first word₀ Good J) (fs : List (List Word)) :
    ∀ s : σ, ¬ Good s → ¬ Good (deliverAll deliver fs s) := by
  induction fs with
  | nil => exact fun _ h => h
  | cons f fs ih => exact fun s h => ih _ (hk.bad_deliver s f h)

/-- The reader against a fixed store: as long as nothing goes wrong it is
where delivery of the frames read so far puts it. -/
def Tracks (R : Reader σ) (Good J : σ → Prop) (s t : σ) (p : Option (List Word)) : Prop :=
  J s ∧ ((Good t ∧ ∃ b, s = R.setBuf t b ∧ b.Holds p) ∨ (¬ Good t ∧ ¬ Good s))

/-- Whatever the buffer holds, a word keeps the invariant and what has gone
wrong. -/
theorem importWord_bad (hd : R.Delivers deliver) (hk : R.Keeps deliver first word₀ Good J) {s : σ}
    (hJ : J s) (hbad : ¬ Good s) (w : Word) :
    J (importWord R w s) ∧ ¬ Good (importWord R w s) := by
  have hrec : J (if (R.buf s).bufferIndex < bufferSize then R.importRecord s else s) ∧
      ¬ Good (if (R.buf s).bufferIndex < bufferSize then R.importRecord s else s) := by
    by_cases hlt : (R.buf s).bufferIndex < bufferSize
    · obtain ⟨l, hl⟩ := exists_holds hlt
      obtain ⟨b, hb⟩ := hd.importRecord_eq s l hl
      rw [if_pos hlt, hb, hk.inv_setBuf, hk.good_setBuf]
      exact ⟨hk.inv_deliver s l hJ, hk.bad_deliver s l hbad⟩
    · rw [if_neg hlt]
      exact ⟨hJ, hbad⟩
  by_cases hs : w &&& recordBit ≠ 0#32
  · by_cases he : w = erasedWord
    · simpa only [importWord, if_pos hs, if_pos he, hk.inv_setBuf, hk.good_setBuf] using hrec
    · simpa only [importWord, if_pos hs, if_neg he, hk.inv_setBuf, hk.good_setBuf] using hrec
  · by_cases hlt : (R.buf s).bufferIndex < bufferSize - 1
    · simpa only [importWord, if_neg hs, if_pos hlt, hk.inv_setBuf, hk.good_setBuf] using
        And.intro hJ hbad
    · simpa only [importWord, if_neg hs, if_neg hlt] using And.intro hJ hbad

theorem Tracks.importWord (hd : R.Delivers deliver) (hk : R.Keeps deliver first word₀ Good J)
    {s t : σ} {p : Option (List Word)} (h : Tracks R Good J s t p) (w : Word) :
    Tracks R Good J (importWord R w s) (deliverAll deliver (Frames.handOn IsStart p w) t)
      (Frames.hold IsStart erasedWord bufferSize p w) := by
  obtain ⟨hJ, ⟨hgood, b, rfl, hb⟩ | ⟨hbad, hbad'⟩⟩ := h
  · obtain ⟨b', h₁, h₂⟩ := importWord_spec hd (s := R.setBuf t b) (p := p)
      (by rw [R.buf_setBuf]; exact hb) w
    have heq : AntTracer.importWord R w (R.setBuf t b) =
        R.setBuf (deliverAll deliver (Frames.handOn IsStart p w) t) b' := by
      rw [h₁]
      change R.setBuf (deliverAll deliver _ (R.setBuf t b)) b' = _
      rw [deliverAll_setBuf hd, R.setBuf_setBuf]
    have hJ' : J (deliverAll deliver (Frames.handOn IsStart p w) t) :=
      inv_deliverAll hk _ t ((hk.inv_setBuf t b).1 hJ)
    rw [heq]
    refine ⟨(hk.inv_setBuf _ _).2 hJ', ?_⟩
    by_cases hg : Good (deliverAll deliver (Frames.handOn IsStart p w) t)
    · exact Or.inl ⟨hg, b', rfl, h₂⟩
    · exact Or.inr ⟨hg, fun h => hg ((hk.good_setBuf _ _).1 h)⟩
  · obtain ⟨h₁, h₂⟩ := importWord_bad hd hk hJ hbad' w
    exact ⟨h₁, Or.inr ⟨bad_deliverAll hk _ t hbad, h₂⟩⟩

theorem importPage_bad (hd : R.Delivers deliver) (hk : R.Keeps deliver first word₀ Good J) (n : ℕ) :
    ∀ (rp : ℕ) (s : σ), J s → ¬ Good s →
    J (importPage R g n rp s) ∧ ¬ Good (importPage R g n rp s) := by
  induction n with
  | zero => exact fun _ _ h₁ h₂ => ⟨h₁, h₂⟩
  | succ n ih =>
    intro rp s hJ hbad
    have h := importWord_bad hd hk hJ hbad (R.word s rp)
    rw [importPage]
    split
    · exact h
    · exact ih _ _ h.1 h.2

theorem Tracks.importPage (hd : R.Delivers deliver) (hk : R.Keeps deliver first word₀ Good J)
    (n : ℕ) : ∀ (rp : ℕ) (s t : σ) (p : Option (List Word)), first ≤ rp → Tracks R Good J s t p →
    Tracks R Good J (importPage R g n rp s)
      (deliverAll deliver (Frames.frames IsStart erasedWord bufferSize p
        (pageStream g word₀ n rp)) t)
      (Frames.pend IsStart erasedWord bufferSize p (pageStream g word₀ n rp)) := by
  induction n with
  | zero => exact fun _ _ _ _ _ h => h
  | succ n ih =>
    intro rp s t p hrp h
    by_cases hgood : Good t
    · -- nothing has gone wrong: the word read is the store's
      have hw : R.word s rp = word₀ rp := by
        obtain ⟨hJ, ⟨-, b, rfl, -⟩ | ⟨hbad, -⟩⟩ := h
        · exact hk.word_eq _ hJ ((hk.good_setBuf t b).2 hgood) rp hrp
        · exact absurd hgood hbad
      have hstep := h.importWord hd hk (word₀ rp)
      rw [AntTracer.importPage, hw, pageStream]
      by_cases he : word₀ rp = erasedWord
      · rw [if_pos he, if_pos he]
        simpa [Frames.frames, Frames.pend] using hstep
      · rw [if_neg he, if_neg he, Frames.frames, Frames.pend_cons, deliverAll_append]
        exact ih _ _ _ _ (by omega) hstep
    · obtain ⟨hJ, ⟨hg, -⟩ | ⟨-, hbad⟩⟩ := h
      · exact absurd hg hgood
      · obtain ⟨h₁, h₂⟩ := importPage_bad (g := g) hd hk (n + 1) rp s hJ hbad
        exact ⟨h₁, Or.inr ⟨bad_deliverAll hk _ t hgood, h₂⟩⟩

theorem importPages_bad (hd : R.Delivers deliver) (hk : R.Keeps deliver first word₀ Good J)
    (newp n : ℕ) : ∀ (page : ℕ) (s : σ), J s → ¬ Good s →
    J (importPages R g newp n page s) ∧ ¬ Good (importPages R g newp n page s) := by
  induction n with
  | zero => exact fun _ _ h₁ h₂ => ⟨h₁, h₂⟩
  | succ n ih =>
    intro page s hJ hbad
    have h := importPage_bad (g := g) hd hk pageWords (g.wrap page) s hJ hbad
    rw [importPages]
    split
    · exact importWord_bad hd hk h.1 h.2 erasedWord
    · exact ih _ _ h.1 h.2

theorem Tracks.importPages (hd : R.Delivers deliver) (hk : R.Keeps deliver first word₀ Good J)
    (hfirst : first ≤ g.start) (newp n : ℕ) : ∀ (page : ℕ) (s t : σ) (p : Option (List Word)),
    first ≤ page → Tracks R Good J s t p →
    Tracks R Good J (importPages R g newp n page s)
      (deliverAll deliver
        (Frames.frames IsStart erasedWord bufferSize p (pagesStream g word₀ newp n page)) t)
      (Frames.pend IsStart erasedWord bufferSize p (pagesStream g word₀ newp n page)) := by
  induction n with
  | zero => exact fun _ _ _ _ _ h => h
  | succ n ih =>
    intro page s t p hpage h
    have hp' : first ≤ g.wrap page := by unfold Region.wrap; split <;> assumption
    have hstep := h.importPage (g := g) hd hk pageWords _ s t p hp'
    rw [AntTracer.importPages, pagesStream, Frames.frames_append, Frames.pend_append,
      deliverAll_append]
    split
    · have hlast := hstep.importWord hd hk erasedWord
      simpa [Frames.frames, Frames.pend] using hlast
    · exact ih _ _ _ _ (by omega) hstep

/-! ## The bounds -/

theorem scanPage_congr {word word' : ℕ → Word} {stride : ℕ} (n : ℕ) : ∀ rp : ℕ,
    (∀ a, rp ≤ a → word a = word' a) →
    scanPage word stride n rp = scanPage word' stride n rp := by
  induction n with
  | zero => exact fun _ _ => rfl
  | succ n ih =>
    intro rp h
    rw [scanPage, scanPage, h rp le_rfl, ih (rp + stride) fun a ha => h a (by omega)]

theorem findBounds_congr {word word' : ℕ → Word} (h : ∀ a, g.start ≤ a → word a = word' a) :
    findBounds g word = findBounds g word' := by
  have hpages : ∀ n page b, g.start ≤ page →
      scanPages g word n page b = scanPages g word' n page b := by
    intro n
    induction n with
    | zero => exact fun _ _ _ => rfl
    | succ n ih =>
      intro page b hp
      rw [scanPages, scanPages, scanPage_congr pageWords page fun a ha => h a (by omega),
        ih _ _ (by omega)]
  exact hpages _ _ _ le_rfl

theorem scanPage_lt {word : ℕ → Word} {stride : ℕ} (n : ℕ) : ∀ (rp q : ℕ),
    scanPage word stride n rp = some q → q < 2 ^ 26 := by
  induction n with
  | zero => exact fun _ _ h => by simp [scanPage] at h
  | succ n ih =>
    intro rp q h
    rw [scanPage] at h
    split at h
    · cases h
    · split at h
      · exact ih _ _ h
      · split at h
        · cases h
          rw [show rdMask = mask 26 by decide, toNat_and_mask (by decide)]
          exact Nat.mod_lt _ (by decide)
        · exact ih _ _ h

/-- Once there is a newest page there is an oldest one, and both lie in the
region. -/
def Bounds.Within (first : ℕ) (b : Bounds) : Prop :=
  (b.oldq < 0xffffffff → first ≤ b.oldp) ∧ (b.newp ≠ 0 → b.oldq < 0xffffffff ∧ first ≤ b.newp)

theorem Bounds.Within.note {first page : ℕ} {b : Bounds} (h : b.Within first) (hp : first ≤ page)
    {q : Option ℕ} (hq : ∀ n, q = some n → n < 2 ^ 26) : (b.note page q).Within first := by
  cases q with
  | none => exact h
  | some n =>
    have hn := hq n rfl
    obtain ⟨h₁, h₂⟩ := h
    unfold Bounds.note Bounds.Within
    dsimp only
    split_ifs <;> simp_all <;> omega

theorem findBounds_within (word : ℕ → Word) : (findBounds g word).Within g.start := by
  have hpages : ∀ n page b, g.start ≤ page → b.Within g.start →
      (scanPages g word n page b).Within g.start := by
    intro n
    induction n with
    | zero => exact fun _ _ _ h => h
    | succ n ih =>
      intro page b hp h
      rw [scanPages]
      split
      · exact ih _ _ (by omega) (h.note hp fun q hq => scanPage_lt _ _ _ hq)
      · exact h
  exact hpages _ _ _ le_rfl (by simp [Bounds.Within, Bounds.init])

/-! ## The whole read -/

/-- **What `readFlash` does**: as long as nothing goes wrong it delivers the
raw records of the store, in order; and if delivering them goes wrong, so
does the read. -/
theorem readFlash_sim (hd : R.Delivers deliver) (hk : R.Keeps deliver g.start word₀ Good J) {s : σ}
    (hJ : J s) (hgood : Good s) :
    J (readFlash R g s).1 ∧
      ((Good (deliverAll deliver (rawRecords g word₀) s) ∧
          ∃ b, (readFlash R g s).1 = R.setBuf (deliverAll deliver (rawRecords g word₀) s) b) ∨
        (¬ Good (deliverAll deliver (rawRecords g word₀) s) ∧ ¬ Good (readFlash R g s).1)) := by
  have hb : findBounds g (R.word s) = findBounds g word₀ :=
    findBounds_congr fun a ha => hk.word_eq s hJ hgood a ha
  rw [readFlash, rawRecords, stream, hb]
  dsimp only
  split
  · rename_i hnew
    have hw := findBounds_within (g := g) word₀
    have hstart : Tracks R Good J (importReset R s) s none :=
      ⟨(hk.inv_setBuf _ _).2 hJ, Or.inl ⟨hgood, _, rfl, rfl⟩⟩
    obtain ⟨h₁, h₂⟩ := hstart.importPages hd hk le_rfl (findBounds g word₀).newp g.rounds _ _ s none
      (hw.1 (hw.2 hnew).1)
    refine ⟨h₁, h₂.imp ?_ id⟩
    rintro ⟨hg, b, hb, -⟩
    exact ⟨hg, b, hb⟩
  · exact ⟨hJ, Or.inl ⟨hgood, R.buf s, (R.setBuf_buf s).symm⟩⟩

/-- **The rule for reads**: what every delivery keeps, the whole read keeps,
whatever is delivered. -/
theorem readFlash_inv (hd : R.Delivers deliver) (hset : ∀ s b, J (R.setBuf s b) ↔ J s)
    (hstep : ∀ s l, J s → J (deliver l s)) {s : σ} (hJ : J s) : J (readFlash R g s).1 := by
  have hk : R.Keeps deliver g.start (R.word s) (fun _ => False) J :=
    ⟨fun _ _ h => h.elim, fun s l h => hstep s l h, fun _ _ h => h, hset, fun _ _ => Iff.rfl⟩
  rw [readFlash]
  dsimp only
  split
  · exact (importPages_bad hd hk _ _ _ _ ((hset _ _).2 hJ) id).1
  · exact hJ

end AntTracer
