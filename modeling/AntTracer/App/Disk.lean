import AntTracer.Library.Tape
import AntTracer.App.Log

/-!
# The store as a tape

What the flash of the store holds is a tape of frames: page advance `u` lies
in physical page `u % 62` and carries sequence number `u + 1`. The page that
comes next may hold words without a sequence record, left by a power loss.
`readFlash` reads back the frames of the tape, and each flash operation of
`wrGo`, cut anywhere, turns a tape into a tape.
-/

namespace AntTracer

namespace App

/-- A tape of raw records; the tag says which record a frame is, if it is a
whole one. -/
abbrev LogTape := Tape (Option ℕ) Word

/-- The address of a physical page of the store. -/
abbrev pageAt (k : ℕ) : ℕ := storeStart + k * pageWords

theorem storeRegion_pageAddr (k : ℕ) : storeRegion.pageAddr k = pageAt k := by
  simp [Region.pageAddr, Region.pageStep, storeRegion]

/-- The flash of the store holds the tape. -/
structure Disk (t : LogTape) (spare : List Word) (flash : ℕ → Word) : Prop where
  laid : t.Laid IsStart erasedWord bufferSize pageWords
  /-- at most one lap -/
  room : t.hi ≤ t.lo + storePages
  /-- a tape without pages is a new one -/
  new : t.lo = t.hi → t.hi = 0
  holds : ∀ u, t.lo ≤ u → u < t.hi → storeRegion.Holds flash (u % storePages) (t.cells u)
  mark : ∀ u, t.lo ≤ u → u < t.hi → (t.cells u).findSome? markIn = some (u + 1)
  /-- the page that comes next, unless the oldest one is still there -/
  next : t.hi < t.lo + storePages → storeRegion.Holds flash (t.hi % storePages) spare
  spare_mark : spare.findSome? markIn = none
  /-- all other pages are erased -/
  blank : ∀ k < storePages, (∀ u, t.lo ≤ u → u ≤ t.hi → u % storePages ≠ k) →
    storeRegion.Holds flash k []

/-- Where the next word goes. -/
def tailOf (t : LogTape) : ℕ :=
  if t.hi = 0 then storeStart
  else pageAt ((t.hi - 1) % storePages) + (t.cells (t.hi - 1)).length

/-- The words left in the newest page. -/
def roomOf (t : LogTape) : ℕ := if t.hi = 0 then 0 else pageWords - (t.cells (t.hi - 1)).length

/-- The page that comes next is erased. -/
def Cleared (t : LogTape) (spare : List Word) : Prop := t.hi < t.lo + storePages ∧ spare = []

/-! ## Programming words -/

/-- The flash with words programmed from `a` on. -/
def burn (flash : ℕ → Word) (a : ℕ) (ws : List Word) : ℕ → Word :=
  fun x => if a ≤ x ∧ x < a + ws.length then ws.getD (x - a) 0#32 else flash x

theorem burn_nil (flash : ℕ → Word) (a : ℕ) : burn flash a [] = flash := by
  funext x
  exact if_neg (by simp)

theorem burn_of_not {flash : ℕ → Word} {a : ℕ} {ws : List Word} {x : ℕ}
    (h : ¬ (a ≤ x ∧ x < a + ws.length)) : burn flash a ws x = flash x := if_neg h

theorem burn_at {flash : ℕ → Word} {a : ℕ} {ws : List Word} {i : ℕ} (h : i < ws.length) :
    burn flash a ws (a + i) = ws[i] := by
  rw [burn, if_pos (by omega), Nat.add_sub_cancel_left, List.getD_eq_getElem _ _ h]

/-- **Words programmed one after the other.** -/
theorem burn_append (flash : ℕ → Word) (a : ℕ) (vs ws : List Word) :
    burn flash a (vs ++ ws) = burn (burn flash a vs) (a + vs.length) ws := by
  funext x
  unfold burn
  by_cases h₁ : a + vs.length ≤ x ∧ x < a + vs.length + ws.length
  · rw [if_pos h₁, if_pos (by simp only [List.length_append]; omega),
      List.getD_append_right _ _ _ _ (by omega)]
    congr 1
    omega
  · rw [if_neg h₁]
    by_cases h₂ : a ≤ x ∧ x < a + vs.length
    · rw [if_pos h₂, if_pos (by simp only [List.length_append]; omega),
        List.getD_append _ _ _ _ (by omega)]
    · rw [if_neg h₂, if_neg (by simp only [List.length_append]; omega)]

/-- One more word on erased flash. -/
theorem burn_step {flash : ℕ → Word} {a : ℕ} {ws : List Word} {k : ℕ} (hk : k < ws.length)
    (hblank : flash (a + k) = erasedWord) :
    Function.update (burn flash a (ws.take k)) (a + k)
      (burn flash a (ws.take k) (a + k) &&& ws[k]) =
      burn flash a (ws.take (k + 1)) := by
  have hlen : (ws.take k).length = k := by rw [List.length_take]; omega
  rw [burn_of_not (by rw [hlen]; omega), hblank, List.take_succ_eq_append_getElem hk, burn_append,
    hlen]
  have hand : erasedWord &&& ws[k] = ws[k] := BitVec.allOnes_and
  rw [hand]
  funext x
  by_cases hx : x = a + k
  · subst hx
    rw [Function.update_self, burn, if_pos (by simp)]
    simp
  · rw [Function.update_of_ne hx]
    exact (burn_of_not (by simp only [List.length_singleton]; omega)).symm

/-! ## Pages -/

theorem holds_nil_iff {flash : ℕ → Word} {k : ℕ} :
    storeRegion.Holds flash k [] ↔ ∀ i < pageWords, flash (pageAt k + i) = erasedWord := by
  constructor
  · intro h i hi
    have := h.word_eq i hi
    rw [storeRegion_pageAddr] at this
    simpa [storeRegion] using this
  · intro h
    refine ⟨Nat.zero_le _, nofun, fun i hi => ?_⟩
    rw [storeRegion_pageAddr]
    simpa [storeRegion] using h i hi

/-- What a page holds depends on its words alone. -/
theorem holds_congr {flash flash' : ℕ → Word} {k : ℕ} {l : List Word}
    (h : storeRegion.Holds flash k l)
    (heq : ∀ i < pageWords, flash' (pageAt k + i) = flash (pageAt k + i)) :
    storeRegion.Holds flash' k l := by
  refine ⟨h.length_le, h.ne_erased, fun i hi => ?_⟩
  rw [← h.word_eq i hi, storeRegion_pageAddr]
  simpa [storeRegion] using heq i hi

theorem holds_word {flash : ℕ → Word} {k : ℕ} {l : List Word} (h : storeRegion.Holds flash k l)
    {i : ℕ} (hi : i < pageWords) : flash (pageAt k + i) = l.getD i erasedWord := by
  have := h.word_eq i hi
  rw [storeRegion_pageAddr] at this
  simpa [storeRegion] using this

/-- **Words programmed after those of a page.** -/
theorem holds_burn {flash : ℕ → Word} {k : ℕ} {l : List Word} (ws : List Word)
    (h : storeRegion.Holds flash k l)
    (hlen : l.length + ws.length ≤ pageWords) (hne : ∀ w ∈ ws, w ≠ erasedWord) :
    storeRegion.Holds (burn flash (pageAt k + l.length) ws) k (l ++ ws) := by
  refine ⟨by simpa using hlen, fun w hw => (List.mem_append.1 hw).elim (h.ne_erased w) (hne w),
    fun i hi => ?_⟩
  have hword := holds_word h hi
  rw [storeRegion_pageAddr, show pageAt k + i * storeRegion.stride = pageAt k + i by
    simp [storeRegion]]
  by_cases h₁ : i < l.length
  · rw [burn_of_not (by omega), hword, List.getD_append _ _ _ _ h₁]
  · rw [List.getD_append_right _ _ _ _ (by omega)]
    by_cases h₂ : i < l.length + ws.length
    · have : burn flash (pageAt k + l.length) ws (pageAt k + l.length + (i - l.length)) =
          ws[i - l.length] := burn_at (by omega)
      rw [show pageAt k + l.length + (i - l.length) = pageAt k + i by omega] at this
      rw [this, List.getD_eq_getElem _ _ (by omega)]
    · rw [burn_of_not (by omega), hword, List.getD_eq_default _ _ (by omega),
        List.getD_eq_default _ _ (by omega)]

/-- Words programmed in one page leave the others. -/
theorem holds_burn_other {flash : ℕ → Word} {k k' o : ℕ} {l : List Word} (ws : List Word)
    (h : storeRegion.Holds flash k l) (hne : k ≠ k') (hlen : o + ws.length ≤ pageWords) :
    storeRegion.Holds (burn flash (pageAt k' + o) ws) k l := by
  refine holds_congr h fun i hi => burn_of_not ?_
  simp only [pageAt, pageWords] at *
  omega

/-- Page advances less than a lap apart go to different pages. -/
theorem mod_ne {u v : ℕ} (h : u < v) (h' : v < u + storePages) :
    u % storePages ≠ v % storePages := by
  simp only [storePages] at *
  omega

theorem mod_lt (u : ℕ) : u % storePages < storePages := Nat.mod_lt u (by decide)

/-! ## Reading the tape -/

section Reading

variable {t : LogTape} {spare : List Word} {flash : ℕ → Word}

/-- A page of the tape is not empty. -/
theorem Disk.cells_ne (h : Disk t spare flash) {u : ℕ} (h₁ : t.lo ≤ u) (h₂ : u < t.hi) :
    t.cells u ≠ [] := by
  intro h₀
  have := h.mark u h₁ h₂
  rw [h₀] at this
  cases this

theorem Disk.ring (h : Disk t spare flash) (hlt : t.lo < t.hi) :
    storeRegion.Ring storePages flash t.lo (t.hi - 1) := by
  have hroom := h.room
  refine ⟨by omega, by omega, fun u h₁ h₂ => ?_, fun k hk hno => ?_⟩
  · rw [(h.holds u h₁ (by omega)).markOf_eq]
    exact h.mark u h₁ (by omega)
  · by_cases hnext : t.hi < t.lo + storePages ∧ t.hi % storePages = k
    · rw [← hnext.2, (h.next hnext.1).markOf_eq]
      exact h.spare_mark
    · refine (h.blank k hk fun u h₁ h₂ => ?_).markOf_eq
      rcases Nat.lt_or_ge u t.hi with hu | hu
      · exact hno u h₁ (by omega)
      · obtain rfl : u = t.hi := by omega
        intro he
        -- the page that comes next is the oldest one
        have hfull : t.hi = t.lo + storePages := by
          by_contra hne
          exact hnext ⟨by omega, he⟩
        exact hno t.lo le_rfl (by omega) (by rw [← he, hfull, Nat.add_mod_right])

theorem stream_eq_pagesFrom (cells : ℕ → List Word) (n : ℕ) : ∀ u,
    (∀ v, u ≤ v → v < u + n → storeRegion.Holds flash (v % storePages) (cells v)) →
    storeRegion.pagesFrom storePages flash u n = Tape.stream erasedWord pageWords cells u n := by
  induction n with
  | zero => exact fun _ _ => rfl
  | succ n ih =>
    intro u h
    rw [Region.pagesFrom, Tape.stream, (h u le_rfl (by omega)).pageStream_eq,
      ih (u + 1) fun v h₁ h₂ => h v (by omega) (by omega)]
    rfl

/-- An empty store has no sequence record. -/
theorem Disk.newp_eq (h : Disk t spare flash) (heq : t.lo = t.hi) :
    (findBounds storeRegion flash).newp = 0 := by
  refine findBounds_of_blank storeRegion_paged fun k hk => ?_
  have hhi := h.new heq
  by_cases h₀ : k = 0
  · have hnext := h.next (by omega)
    rw [hhi, Nat.zero_mod, ← h₀] at hnext
    exact hnext.markOf_eq.trans h.spare_mark
  · refine (h.blank k hk fun u h₁ h₂ => ?_).markOf_eq
    obtain rfl : u = 0 := by omega
    rw [Nat.zero_mod]
    exact fun h => h₀ h.symm

/-- **`readFlash` hands on the frames of the tape.** -/
theorem Disk.rawRecords_eq (h : Disk t spare flash) :
    rawRecords storeRegion flash = t.contents.map Prod.snd := by
  rcases Nat.lt_or_ge t.lo t.hi with hlt | hge
  · rw [rawRecords, (h.ring hlt).stream_eq storeRegion_paged,
      show t.hi - 1 - t.lo + 1 = t.hi - t.lo by omega,
      stream_eq_pagesFrom t.cells _ _ fun v h₁ h₂ => h.holds v h₁ (by omega)]
    exact h.laid.frames_stream isStart_erasedWord
  · have heq : t.lo = t.hi := by have := h.laid.le; omega
    rw [rawRecords, stream, h.newp_eq heq, Tape.contents, heq, Nat.sub_self]
    rfl

/-- **And the end of the tape**, with the last sequence number. -/
theorem Disk.readFlash_bounds (h : Disk t spare flash) (hlt : t.lo < t.hi) :
    (findBounds storeRegion flash).newp ≠ 0 ∧ (findBounds storeRegion flash).newq = t.hi ∧
      backScan storeRegion flash (findBounds storeRegion flash).newp pageWords = tailOf t := by
  have hholds := h.holds (t.hi - 1) (by omega) (by omega)
  rw [(h.ring hlt).findBounds_eq storeRegion_paged]
  refine ⟨?_, by simp only; omega, ?_⟩
  · simp only [storeRegion_pageAddr, pageAt, storeStart, pageWords]
    omega
  · simp only
    rw [hholds.backScan_eq, tailOf, if_neg (by omega), storeRegion_pageAddr]
    simp [storeRegion]

end Reading

/-! ## Changing the tape -/

section Changing

variable {t : LogTape} {spare : List Word} {flash flash' : ℕ → Word}

theorem Disk.congr (h : Disk t spare flash)
    (heq : ∀ a, storeStart ≤ a → a < storeEnd → flash' a = flash a) : Disk t spare flash' := by
  have hpage : ∀ {k l}, k < storePages → storeRegion.Holds flash k l →
      storeRegion.Holds flash' k l := fun hk hl => holds_congr hl fun i hi => heq _
    (by simp only [pageAt]; omega)
    (by simp only [pageAt, storeStart, storeEnd, storePages, pageWords] at *; omega)
  exact ⟨h.laid, h.room, h.new, fun u h₁ h₂ => hpage (mod_lt u) (h.holds u h₁ h₂), h.mark,
    fun hn => hpage (mod_lt _) (h.next hn), h.spare_mark,
    fun k hk hno => hpage hk (h.blank k hk hno)⟩

/-- The flash beyond the tape is erased, within the newest page. -/
theorem Disk.tail_blank (h : Disk t spare flash) {i : ℕ} (hi : i < roomOf t) :
    flash (tailOf t + i) = erasedWord := by
  have hle := h.laid.le
  have hnew := h.new
  by_cases h₀ : t.hi = 0
  · rw [roomOf, if_pos h₀] at hi
    omega
  have hlt : t.lo ≤ t.hi - 1 := by omega
  have hholds := h.holds (t.hi - 1) hlt (by omega)
  rw [roomOf, if_neg h₀] at hi
  have := holds_word hholds (i := (t.cells (t.hi - 1)).length + i) (by omega)
  rw [List.getD_eq_default _ _ (by omega)] at this
  rw [tailOf, if_neg h₀, Nat.add_assoc]
  exact this

/-- Words programmed in the page that comes next leave the others alone. -/
theorem holds_burn_next {ws : List Word} (hlen : ws.length ≤ pageWords) {k : ℕ} {l : List Word}
    (hk : k ≠ t.hi % storePages) (hl : storeRegion.Holds flash k l) :
    storeRegion.Holds (burn flash (pageAt (t.hi % storePages)) ws) k l := by
  have := holds_burn_other ws (o := 0) hl hk (by omega)
  rwa [Nat.add_zero] at this

/-- Words programmed behind the tape leave all pages alone but the newest, in
whose room they are. -/
theorem holds_burn_tail {ws : List Word} (hroom : ws.length ≤ roomOf t) {k : ℕ} {l : List Word}
    (hk : 0 < ws.length → k ≠ (t.hi - 1) % storePages) (hl : storeRegion.Holds flash k l) :
    storeRegion.Holds (burn flash (tailOf t) ws) k l := by
  rcases Nat.eq_zero_or_pos ws.length with hws | hws
  · rw [List.length_eq_zero_iff.1 hws, burn_nil]
    exact hl
  · unfold roomOf at hroom
    split at hroom
    · omega
    · rename_i hhi
      rw [tailOf, if_neg hhi]
      exact holds_burn_other _ hl (hk hws) (by omega)

/-- **A frame programmed behind the tape**, in the room of its newest page. -/
theorem Disk.append (h : Disk t spare flash) (hlt : t.lo < t.hi) {e : Option ℕ × List Word}
    (he : Frames.IsFrame IsStart erasedWord bufferSize e.2) (hne : ∀ w ∈ e.2, w ≠ erasedWord)
    (hroom : e.2.length ≤ roomOf t) :
    Disk (t.append e) spare (burn flash (tailOf t) e.2) := by
  have hr := h.room
  have hother : ∀ {k l}, k ≠ (t.hi - 1) % storePages → storeRegion.Holds flash k l →
      storeRegion.Holds (burn flash (tailOf t) e.2) k l := fun hk hl =>
    holds_burn_tail hroom (fun _ => hk) hl
  rw [roomOf, if_neg (by omega)] at hroom
  have hlen := h.laid.length_le (t.hi - 1) (by omega) (by omega)
  have htail : tailOf t = pageAt ((t.hi - 1) % storePages) + (t.cells (t.hi - 1)).length := by
    rw [tailOf, if_neg (by omega)]
  refine ⟨h.laid.append he fun u hu => ?_, h.room, h.new, fun u h₁ h₂ => ?_, fun u h₁ h₂ => ?_,
    fun hn => ?_, h.spare_mark, fun k hk hno => hother (fun heq => ?_) (h.blank k hk hno)⟩
  · obtain rfl : u = t.hi - 1 := by omega
    omega
  · by_cases hu : u + 1 = t.hi
    · obtain rfl : u = t.hi - 1 := by omega
      simp only [Tape.append, if_pos hu]
      rw [htail]
      exact holds_burn _ (h.holds _ h₁ h₂) (by omega) hne
    · simp only [Tape.append, if_neg hu]
      change u < t.hi at h₂
      change t.lo ≤ u at h₁
      exact hother (mod_ne (by omega) (by omega)) (h.holds u h₁ h₂)
  · by_cases hu : u + 1 = t.hi
    · simp only [Tape.append, if_pos hu, List.findSome?_append, h.mark u h₁ h₂]
      rfl
    · simp only [Tape.append, if_neg hu]
      exact h.mark u h₁ h₂
  · change t.hi < t.lo + storePages at hn
    have hne : (t.hi - 1) % storePages ≠ t.hi % storePages := mod_ne (by omega) (by omega)
    exact hother hne.symm (h.next hn)
  · have hno' : ∀ u, t.lo ≤ u → u ≤ t.hi → u % storePages ≠ k := hno
    exact hno' (t.hi - 1) (by omega) (by omega) heq.symm

/-- **Words programmed in the page that comes next**, but no sequence record
yet: they are not part of the tape. -/
theorem Disk.leave (h : Disk t spare flash) (hc : Cleared t spare) {ws : List Word}
    (hlen : ws.length ≤ pageWords) (hne : ∀ w ∈ ws, w ≠ erasedWord)
    (hmark : ws.findSome? markIn = none) :
    Disk t ws (burn flash (pageAt (t.hi % storePages)) ws) := by
  obtain ⟨hnext, rfl⟩ := hc
  refine ⟨h.laid, h.room, h.new,
    fun u h₁ h₂ => holds_burn_next hlen (mod_ne h₂ (by omega)) (h.holds u h₁ h₂), h.mark,
    fun hn => ?_, hmark, fun k hk hno => holds_burn_next hlen
      (fun heq => hno t.hi h.laid.le le_rfl heq.symm) (h.blank k hk hno)⟩
  have := holds_burn ws (h.next hn) (by simpa using hlen) hne
  simpa using this

theorem Disk.turn_mark (h : Disk t spare flash) {r : ℕ} {e : Option ℕ × List Word}
    {es : List (Option ℕ × List Word)}
    (hmark : (e.2.drop r ++ Tape.words es).findSome? markIn = some (t.hi + 1)) {u : ℕ}
    (h₁ : t.lo ≤ u) (h₂ : u < t.hi + 1) :
    ((t.turn r e es).cells u).findSome? markIn = some (u + 1) := by
  rcases Tape.turn_cases h₂ with hu | hu | rfl
  · rw [Tape.turn_cells_of_lt hu]
    exact h.mark u h₁ (by omega)
  · rw [Tape.turn_cells_last hu, List.findSome?_append, h.mark u h₁ (by omega)]
    rfl
  · rw [Tape.turn_cells_new]
    exact hmark

/-- **A page turned**: the first `r` words of the frame fill the newest page,
the rest and a sequence record go into the next one. -/
theorem Disk.turn (h : Disk t spare flash) (hc : Cleared t spare)
    (es : List (Option ℕ × List Word)) {r : ℕ} {e : Option ℕ × List Word}
    (he : Frames.IsFrame IsStart erasedWord bufferSize e.2)
    (hes : ∀ f ∈ es, Frames.IsFrame IsStart erasedWord bufferSize f.2)
    (hfill : 0 < r → r < e.2.length ∧ t.lo < t.hi ∧ r = roomOf t)
    (hlen : (e.2.drop r ++ Tape.words es).length ≤ pageWords) (hne : ∀ w ∈ e.2, w ≠ erasedWord)
    (hne' : ∀ w ∈ Tape.words es, w ≠ erasedWord)
    (hmark : (e.2.drop r ++ Tape.words es).findSome? markIn = some (t.hi + 1)) :
    Disk (t.turn r e es) [] (burn (burn flash (tailOf t) (e.2.take r))
      (pageAt (t.hi % storePages)) (e.2.drop r ++ Tape.words es)) := by
  obtain ⟨hnext, rfl⟩ := hc
  have hle := h.laid.le
  have hfill' : 0 < r → t.lo < t.hi ∧ r < e.2.length ∧
      ∀ u, u + 1 = t.hi → (t.cells u).length + r = pageWords := by
    intro hr
    obtain ⟨h₁, h₂, h₃⟩ := hfill hr
    refine ⟨h₂, h₁, fun u hu => ?_⟩
    obtain rfl : u = t.hi - 1 := by omega
    have := h.laid.length_le (t.hi - 1) (by omega) (by omega)
    rw [roomOf, if_neg (by omega)] at h₃
    omega
  have hroom : (e.2.take r).length ≤ roomOf t := by
    rw [List.length_take]
    by_cases hr : 0 < r
    · have := (hfill hr).2.2
      omega
    · omega
  have hfirst : ∀ {k l}, (0 < r → k ≠ (t.hi - 1) % storePages) → storeRegion.Holds flash k l →
      storeRegion.Holds (burn flash (tailOf t) (e.2.take r)) k l := fun hk hl =>
    holds_burn_tail hroom (fun hpos => hk (by rw [List.length_take] at hpos; omega)) hl
  refine ⟨h.laid.turn he hes hfill' hlen, ?_, fun heq => ?_, fun u h₁ h₂ => ?_,
    fun u h₁ h₂ => h.turn_mark hmark h₁ h₂, fun hn => ?_, rfl, fun k hk hno => ?_⟩
  · simp only [Tape.turn]
    omega
  · simp only [Tape.turn] at heq
    omega
  · change t.lo ≤ u at h₁
    rcases Tape.turn_cases h₂ with hu | hu | rfl
    · rw [Tape.turn_cells_of_lt hu]
      exact holds_burn_next hlen (mod_ne (by omega) (by omega))
        (hfirst (fun _ => mod_ne (by omega) (by omega)) (h.holds u h₁ (by omega)))
    · -- the first part ends the newest page
      rw [Tape.turn_cells_last hu]
      refine holds_burn_next hlen (mod_ne (by omega) (by omega)) ?_
      have hcells := h.holds u h₁ (by omega)
      have hfull : (t.cells u).length + (e.2.take r).length ≤ pageWords := by
        have := h.laid.length_le u h₁ (by omega)
        rw [List.length_take]
        by_cases hr : 0 < r
        · have := (hfill' hr).2.2 u hu
          omega
        · omega
      obtain rfl : u = t.hi - 1 := by omega
      rw [tailOf, if_neg (by omega)]
      exact holds_burn _ hcells hfull fun w hw => hne w (List.mem_of_mem_take hw)
    · -- and the second part begins the next one
      rw [Tape.turn_cells_new]
      have hb := holds_burn (e.2.drop r ++ Tape.words es)
        (hfirst (fun _ heq => mod_ne (by omega) (by omega) heq.symm) (h.next hnext))
        (by simpa using hlen) fun w hw => (List.mem_append.1 hw).elim
          (fun hw => hne w (List.mem_of_mem_drop hw)) (hne' w)
      simpa using hb
  · change t.hi + 1 < t.lo + storePages at hn
    change storeRegion.Holds _ ((t.hi + 1) % storePages) []
    refine holds_burn_next hlen (fun heq => mod_ne (by omega) (by omega) heq.symm)
      (hfirst (fun hr heq => ?_) ?_)
    · exact mod_ne (u := t.hi - 1) (v := t.hi + 1) (by omega)
        (by have := (hfill' hr).1; omega) heq.symm
    · exact h.blank _ (mod_lt _) fun u h₁ h₂ => mod_ne (by omega) (by omega)
  · have hno' : ∀ u, t.lo ≤ u → u ≤ t.hi + 1 → u % storePages ≠ k := hno
    exact holds_burn_next hlen (fun heq => hno' t.hi hle (by omega) heq.symm)
      (hfirst (fun hr heq => hno' (t.hi - 1) (by have := (hfill' hr).1; omega) (by omega) heq.symm)
        (h.blank k hk fun u h₁ h₂ => hno' u h₁ (by omega)))

/-- The flash with a page erased. -/
def wipe (flash : ℕ → Word) (page : ℕ) : ℕ → Word :=
  fun a => if a / pageWords = page then erasedWord else flash a

theorem holds_wipe {k : ℕ} : storeRegion.Holds (wipe flash (64 + k)) k [] := by
  rw [holds_nil_iff]
  intro i hi
  exact if_pos (by simp only [pageAt, storeStart, pageWords] at *; omega)

theorem holds_wipe_other {k k' : ℕ} {l : List Word} (h : storeRegion.Holds flash k l)
    (hne : k ≠ k') :
    storeRegion.Holds (wipe flash (64 + k')) k l :=
  holds_congr h fun i hi => if_neg (by simp only [pageAt, storeStart, pageWords] at *; omega)

/-- **The page that comes next erased.** -/
theorem Disk.erase_next (h : Disk t spare flash) (hnext : t.hi < t.lo + storePages) :
    Disk t [] (wipe flash (64 + t.hi % storePages)) :=
  ⟨h.laid, h.room, h.new, fun u h₁ h₂ => holds_wipe_other (h.holds u h₁ h₂) (mod_ne h₂ (by omega)),
    h.mark, fun _ => holds_wipe, rfl,
    fun k hk hno => holds_wipe_other (h.blank k hk hno) fun heq =>
      hno t.hi h.laid.le le_rfl heq.symm⟩

/-- **The oldest page erased**, when it is the one that comes next. -/
theorem Disk.erase_oldest (h : Disk t spare flash) (hfull : t.hi = t.lo + storePages) :
    Disk t.drop [] (wipe flash (64 + t.hi % storePages)) := by
  have hmod : t.hi % storePages = t.lo % storePages := by rw [hfull, Nat.add_mod_right]
  have hpos : 0 < storePages := by decide
  refine ⟨h.laid.drop (by omega), by simp only [Tape.drop]; omega,
    fun heq => by simp only [Tape.drop, storePages] at *; omega, fun u h₁ h₂ => ?_,
    fun u h₁ h₂ => ?_, fun _ => holds_wipe, rfl, fun k hk hno => ?_⟩
  · simp only [Tape.drop] at h₁ h₂
    exact holds_wipe_other (h.holds u (by omega) h₂) (mod_ne h₂ (by omega))
  · simp only [Tape.drop] at h₁ h₂
    exact h.mark u (by omega) h₂
  · refine holds_wipe_other (h.blank k hk fun u h₁ h₂ => ?_)
      fun heq => hno t.hi (by simp only [Tape.drop]; omega) le_rfl heq.symm
    rcases Nat.eq_or_lt_of_le h₁ with rfl | hlt
    · rw [← hmod]
      exact hno t.hi (by simp only [Tape.drop]; omega) le_rfl
    · exact hno u hlt h₂

end Changing

end App

end AntTracer
