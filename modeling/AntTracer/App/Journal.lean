import AntTracer.App.Reading

/-!
# The records on the tape

Each frame of the tape that `importRecord` accepts is a record handed to
`wrGo`, tagged with its place in the history. A record is programmed word by
word, behind the tape or over its end into the page that comes next. Cut
anywhere, what is there is a tape again: with the record, with a piece of it
that is not accepted, or without it.
-/

namespace AntTracer

namespace App

/-! ## Records -/

/-- What `wrNew` and `wr` make of a record. -/
structure IsRecord (f : List Word) : Prop where
  frame : Frames.IsFrame IsStart erasedWord bufferSize f
  type_ne : typeOf f ≠ rtSequence
  /-- it has just the words its fields need -/
  length_eq : f.length = fieldWords (typeWidths (typeOf f))
  /-- and there is room for a sequence record -/
  short : f.length < bufferSize

section Record

variable {f : List Word}

theorem IsRecord.length_pos (h : IsRecord f) : 0 < f.length :=
  List.length_pos_of_ne_nil h.frame.ne_nil

theorem IsRecord.accepts (h : IsRecord f) : Accepts f := ⟨h.type_ne, h.length_eq.ge⟩

/-- **A piece of a record is not accepted.** -/
theorem IsRecord.not_accepts_take (h : IsRecord f) {k : ℕ} (hpos : 0 < k) (hk : k < f.length) :
    ¬ Accepts (f.take k) := by
  intro hacc
  have htype : typeOf (f.take k) = typeOf f := by
    rw [typeOf, List.getD_eq_getElem?_getD, List.getElem?_take_of_lt hpos,
      ← List.getD_eq_getElem?_getD]
  have := hacc.2
  rw [htype, ← h.length_eq, List.length_take] at this
  omega

theorem IsRecord.ne_erased (h : IsRecord f) : ∀ w ∈ f, w ≠ erasedWord := by
  obtain ⟨⟨hne, -, hh, ht, -⟩, -, -, -⟩ := h
  cases f with
  | nil => exact absurd rfl hne
  | cons w ws =>
    intro v hv
    rcases List.mem_cons.1 hv with rfl | hv
    · exact hh
    · exact ne_erasedWord_of_not_isStart (ht v hv)

/-- No word of a record is a sequence record. -/
theorem IsRecord.markIn_eq (h : IsRecord f) : ∀ w ∈ f, markIn w = none := by
  obtain ⟨⟨hne, -, -, ht, -⟩, htype, -, -⟩ := h
  cases f with
  | nil => exact absurd rfl hne
  | cons w ws =>
    intro v hv
    rcases List.mem_cons.1 hv with rfl | hv
    · exact if_neg fun hs => htype hs.2
    · exact if_neg fun hs => ht v hv hs.1

theorem IsRecord.findSome?_eq (h : IsRecord f) {l : List Word} (hl : ∀ w ∈ l, w ∈ f) :
    l.findSome? markIn = none :=
  List.findSome?_eq_none_iff.2 fun w hw => h.markIn_eq w (hl w hw)

/-- A sequence record is a frame. -/
theorem isFrame_sequenceWord {u : ℕ} (h : u + 1 < 2 ^ 26 - 1) :
    Frames.IsFrame IsStart erasedWord bufferSize [sequenceWord (pageNumber u)] :=
  ⟨by simp, isStart_sequenceWord _, sequenceWord_pageNumber_ne h, nofun, by simp⟩

/-- And is not accepted. -/
theorem not_accepts_sequenceWord (w : Word) : ¬ Accepts [sequenceWord w] :=
  fun h => h.1 (recordType_sequenceWord w)

end Record

/-! ## The tape and the history -/

/-- The records on the tape, by their places in the history. -/
def tags (t : LogTape) : List ℕ := t.contents.filterMap Prod.fst

theorem mem_contents {t : LogTape} {e : Option ℕ × List Word} :
    e ∈ t.contents ↔ ∃ u, t.lo ≤ u ∧ u < t.hi ∧ e ∈ t.entries u := by
  simp only [Tape.contents, List.mem_flatMap, List.mem_range'_1]
  constructor
  · rintro ⟨u, hu, he⟩
    exact ⟨u, hu.1, by omega, he⟩
  · rintro ⟨u, h₁, h₂, he⟩
    exact ⟨u, ⟨h₁, by omega⟩, he⟩

/-- What the tape has to do with the records handed to `wrGo`. -/
structure Linked (t : LogTape) (rs : List Appended) : Prop where
  sorted : (tags t).Pairwise (· < ·)
  /-- a tagged frame is that record, and begins in the page it is filed under -/
  whole : ∀ u, t.lo ≤ u → u < t.hi → ∀ i ws, (some i, ws) ∈ t.entries u →
    ∃ r, rs[i]? = some r ∧ r.words = ws ∧ Accepts ws ∧ (r.status = .completed ∨ r.status = .cut) ∧
      ∃ a, r.start = some a ∧ a / pageWords = 64 + u % storePages
  /-- the other frames are not accepted -/
  piece : ∀ u, t.lo ≤ u → u < t.hi → ∀ ws, (none, ws) ∈ t.entries u → ¬ Accepts ws
  /-- what was completed and not erased since is there -/
  kept : ∀ i r, rs[i]? = some r → r.status = .completed → r.erased = false → i ∈ tags t
  /-- records are written in the store -/
  within : ∀ r ∈ rs, ∀ a, r.start = some a → storeStart ≤ a ∧ a + r.words.length ≤ storeEnd

section Linked

variable {t t' : LogTape} {rs : List Appended}

theorem Linked.tags_lt (h : Linked t rs) : ∀ i ∈ tags t, i < rs.length := by
  intro i hi
  obtain ⟨⟨o, ws⟩, he, rfl⟩ := List.mem_filterMap.1 hi
  obtain ⟨u, h₁, h₂, he⟩ := mem_contents.1 he
  obtain ⟨r, hr, -⟩ := h.whole u h₁ h₂ i ws he
  exact (List.getElem?_eq_some_iff.1 hr).1

theorem getElem?_noteErased {page i : ℕ} {r : Appended} (h : (noteErased page rs)[i]? = some r) :
    ∃ r₀, rs[i]? = some r₀ ∧ r = if r₀.Touches page then { r₀ with erased := true } else r₀ := by
  rw [noteErased, List.getElem?_map, Option.map_eq_some_iff] at h
  obtain ⟨r₀, h₁, h₂⟩ := h
  exact ⟨r₀, h₁, h₂.symm⟩

theorem noteErased_words (page : ℕ) (r : Appended) :
    (if r.Touches page then { r with erased := true } else r).words = r.words ∧
      (if r.Touches page then { r with erased := true } else r).status = r.status ∧
      (if r.Touches page then { r with erased := true } else r).start = r.start := by
  split <;> exact ⟨rfl, rfl, rfl⟩

theorem Linked.whole_noteErased (h : Linked t rs) (page : ℕ) : ∀ u, t.lo ≤ u → u < t.hi →
    ∀ i ws, (some i, ws) ∈ t.entries u → ∃ r, (noteErased page rs)[i]? = some r ∧ r.words = ws ∧
      Accepts ws ∧ (r.status = .completed ∨ r.status = .cut) ∧
      ∃ a, r.start = some a ∧ a / pageWords = 64 + u % storePages := by
  intro u h₁ h₂ i ws he
  obtain ⟨r, hr, hw, hacc, hstatus, hstart⟩ := h.whole u h₁ h₂ i ws he
  obtain ⟨e₁, e₂, e₃⟩ := noteErased_words page r
  refine ⟨_, ?_, e₁.trans hw, hacc, ?_, ?_⟩
  · rw [noteErased, List.getElem?_map, hr]
    rfl
  · rw [e₂]
    exact hstatus
  · rw [e₃]
    exact hstart

theorem Linked.within_noteErased (h : Linked t rs) (page : ℕ) : ∀ r ∈ noteErased page rs,
    ∀ a, r.start = some a → storeStart ≤ a ∧ a + r.words.length ≤ storeEnd := by
  intro r hr a ha
  obtain ⟨r₀, hr₀, rfl⟩ := List.mem_map.1 hr
  obtain ⟨e₁, -, e₃⟩ := noteErased_words page r₀
  rw [e₃] at ha
  rw [e₁]
  exact h.within r₀ hr₀ a ha

/-- **The erase of a page that is not on the tape.** -/
theorem Linked.noteErased (h : Linked t rs) (page : ℕ) : Linked t (noteErased page rs) := by
  refine ⟨h.sorted, h.whole_noteErased page, h.piece, fun i r hr hstatus herased => ?_,
    h.within_noteErased page⟩
  obtain ⟨r₀, hr₀, rfl⟩ := getElem?_noteErased hr
  by_cases ht : r₀.Touches page
  · rw [if_pos ht] at herased
    cases herased
  · rw [if_neg ht] at hstatus herased
    exact h.kept i r₀ hr₀ hstatus herased

/-- **The erase of the oldest page**: all records that begin in it are
noted. -/
theorem Linked.drop (h : Linked t rs) (hlt : t.lo < t.hi) :
    Linked t.drop (App.noteErased (64 + t.lo % storePages) rs) := by
  have hcontents := Tape.contents_drop t hlt
  have htags : tags t = (t.entries t.lo).filterMap Prod.fst ++ tags t.drop := by
    rw [tags, hcontents, List.filterMap_append]
    rfl
  have hlo : ∀ {u}, t.drop.lo ≤ u → t.lo ≤ u := fun hu => Nat.le_of_succ_le hu
  refine ⟨?_, fun u hu => h.whole_noteErased _ u (hlo hu), fun u hu => h.piece u (hlo hu),
    fun i r hr hstatus herased => ?_, h.within_noteErased _⟩
  · have := h.sorted
    rw [htags] at this
    exact (List.pairwise_append.1 this).2.1
  · obtain ⟨r₀, hr₀, rfl⟩ := getElem?_noteErased hr
    by_cases ht : r₀.Touches (64 + t.lo % storePages)
    · rw [if_pos ht] at herased
      cases herased
    · rw [if_neg ht] at hstatus herased
      have hmem := h.kept i r₀ hr₀ hstatus herased
      rw [htags, List.mem_append] at hmem
      refine hmem.resolve_left fun hold => ht ?_
      -- a record that begins in the page touches it
      obtain ⟨⟨o, ws⟩, he, rfl⟩ := List.mem_filterMap.1 hold
      obtain ⟨r, hr, hw, hacc, -, a, ha, hpage⟩ := h.whole t.lo le_rfl hlt i ws he
      obtain rfl : r = r₀ := Option.some.inj (hr.symm.trans hr₀)
      have hpos : 0 < r.words.length := by
        have h₁ := hacc.2
        rw [fieldWords] at h₁
        rw [hw]
        omega
      refine ⟨a, ha, hpage.le, ?_⟩
      rw [← hpage]
      have := Nat.div_mul_le_self a pageWords
      omega

/-- **One more record**, and what it adds to the tape. -/
theorem Linked.extend (h : Linked t rs) {r : Appended} (new : List ℕ)
    (htags : tags t' = tags t ++ new)
    (hnew : new = [] ∨ new = [rs.length])
    (hentries : ∀ u, t'.lo ≤ u → u < t'.hi → ∀ e ∈ t'.entries u,
      (t.lo ≤ u ∧ u < t.hi ∧ e ∈ t.entries u) ∨ (e.1 = none ∧ ¬ Accepts e.2) ∨
        (e = (some rs.length, r.words) ∧ Accepts r.words ∧
          (r.status = .completed ∨ r.status = .cut) ∧
          ∃ a, r.start = some a ∧ a / pageWords = 64 + u % storePages))
    (hkept : r.status = .completed → r.erased = false → new = [rs.length])
    (hwithin : ∀ a, r.start = some a → storeStart ≤ a ∧ a + r.words.length ≤ storeEnd) :
    Linked t' (rs ++ [r]) := by
  have hlast : (rs ++ [r])[rs.length]? = some r := by simp
  refine ⟨?_, fun u h₁ h₂ i ws he => ?_, fun u h₁ h₂ ws he => ?_, fun i r' hr hstatus herased => ?_,
    fun r' hr => ?_⟩
  · rw [htags, List.pairwise_append]
    refine ⟨h.sorted, ?_, fun i hi j hj => ?_⟩
    · rcases hnew with rfl | rfl <;> simp
    · have := h.tags_lt i hi
      rcases hnew with rfl | rfl
      · cases hj
      · obtain rfl := List.mem_singleton.1 hj
        exact this
  · rcases hentries u h₁ h₂ _ he with ⟨h₃, h₄, he⟩ | ⟨h₃, -⟩ | ⟨h₃, hacc, hstatus, hstart⟩
    · obtain ⟨r', hr', hrest⟩ := h.whole u h₃ h₄ i ws he
      refine ⟨r', ?_, hrest⟩
      rw [List.getElem?_append_left (List.getElem?_eq_some_iff.1 hr').1]
      exact hr'
    · cases h₃
    · obtain ⟨htag, rfl⟩ := Prod.mk.inj h₃
      obtain rfl := Option.some.inj htag
      exact ⟨r, hlast, rfl, hacc, hstatus, hstart⟩
  · rcases hentries u h₁ h₂ _ he with ⟨h₃, h₄, he⟩ | ⟨-, h₃⟩ | ⟨h₃, -⟩
    · exact h.piece u h₃ h₄ ws he
    · exact h₃
    · cases h₃
  · rw [htags, List.mem_append]
    rcases Nat.lt_trichotomy i rs.length with hi | rfl | hi
    · rw [List.getElem?_append_left hi] at hr
      exact Or.inl (h.kept i r' hr hstatus herased)
    · obtain rfl := Option.some.inj (hlast.symm.trans hr)
      rw [hkept hstatus herased]
      exact Or.inr (by simp)
    · rw [List.getElem?_eq_none (by simp; omega)] at hr
      cases hr
  · rcases List.mem_append.1 hr with hr | hr
    · exact h.within r' hr
    · obtain rfl := List.mem_singleton.1 hr
      exact hwithin

end Linked

/-! ## Where a record goes -/

/-- The words of a record that still go into the newest page, when it goes
over the end of the tape: none if the next page is the first one. -/
def firstPart (t : LogTape) : ℕ := if t.hi % storePages = 0 then 0 else roomOf t

/-- Where a record is written that goes over the end of the tape. -/
def newStart (t : LogTape) : ℕ := if t.hi % storePages = 0 then storeStart else tailOf t

/-- The words written for a record, the address they are written at, and the
number of pages after it. -/
inductive Placed (t : LogTape) (spare f : List Word) : List Word → ℕ → ℕ → Prop
  | inPage (h : f.length ≤ roomOf t) : Placed t spare f f (tailOf t) t.hi
  | turning (h : roomOf t < f.length) (hc : Cleared t spare) :
    Placed t spare f (f ++ [sequenceWord (pageNumber t.hi)]) (newStart t) (t.hi + 1)

section Placed

variable {t : LogTape} {spare : List Word} {flash : ℕ → Word} {rs : List Appended}

/-- The tail lies in the newest page, or right behind it. -/
theorem Disk.tail_eq (h : Disk t spare flash) (hpos : t.hi ≠ 0) :
    t.lo < t.hi ∧ tailOf t = pageAt ((t.hi - 1) % storePages) + (t.cells (t.hi - 1)).length ∧
      roomOf t + (t.cells (t.hi - 1)).length = pageWords ∧ 0 < (t.cells (t.hi - 1)).length := by
  have hle := h.laid.le
  have hnew := h.new
  have hlt : t.lo < t.hi := by omega
  have hlen := h.laid.length_le (t.hi - 1) (by omega) (by omega)
  have hne := List.length_pos_of_ne_nil (h.cells_ne (u := t.hi - 1) (by omega) (by omega))
  refine ⟨hlt, ?_, ?_, hne⟩
  · rw [tailOf, if_neg hpos]
  · rw [roomOf, if_neg hpos]
    omega

/-- **The first part ends where the next page begins.** -/
theorem Disk.newStart_add (h : Disk t spare flash) :
    newStart t + firstPart t = pageAt (t.hi % storePages) := by
  unfold newStart firstPart
  by_cases h₀ : t.hi % storePages = 0
  · rw [if_pos h₀, if_pos h₀, h₀]
    rfl
  · obtain ⟨-, h₁, h₂, -⟩ := h.tail_eq fun h₁ => h₀ (by rw [h₁]; rfl)
    have hmod : (t.hi - 1) % storePages + 1 = t.hi % storePages := by
      simp only [storePages] at *
      omega
    rw [if_neg h₀, if_neg h₀, h₁, ← hmod]
    simp only [pageAt, pageWords] at *
    omega

/-- The words programmed for a record that goes over the end, in two
parts. -/
theorem burn_newStart (h : Disk t spare flash) {ws : List Word} :
    burn flash (newStart t) ws = burn (burn flash (newStart t) (ws.take (firstPart t)))
      (pageAt (t.hi % storePages)) (ws.drop (firstPart t)) := by
  by_cases hlen : firstPart t ≤ ws.length
  · conv_lhs => rw [← List.take_append_drop (firstPart t) ws, burn_append, List.length_take,
      Nat.min_eq_left hlen, h.newStart_add]
  · rw [List.take_of_length_le (by omega), List.drop_eq_nil_of_le (by omega), burn_nil]

/-- A first part is one in the newest page. -/
theorem Disk.firstPart_pos (h : Disk t spare flash) (hpos : 0 < firstPart t) :
    t.lo < t.hi ∧ firstPart t = roomOf t ∧ newStart t = tailOf t := by
  unfold firstPart at hpos ⊢
  unfold newStart
  by_cases h₀ : t.hi % storePages = 0
  · rw [if_pos h₀] at hpos
    omega
  · rw [if_neg h₀, if_neg h₀]
    exact ⟨(h.tail_eq fun h₁ => h₀ (by rw [h₁]; rfl)).1, rfl, rfl⟩

theorem firstPart_le (t : LogTape) : firstPart t ≤ roomOf t := by
  unfold firstPart
  split <;> omega

theorem Disk.page_tail (h : Disk t spare flash) (hpos : 0 < roomOf t) :
    t.lo < t.hi ∧ tailOf t / pageWords = 64 + (t.hi - 1) % storePages ∧ storeStart ≤ tailOf t ∧
      tailOf t + roomOf t ≤ storeEnd := by
  have h₀ : t.hi ≠ 0 := by
    intro h₀
    rw [roomOf, if_pos h₀] at hpos
    omega
  obtain ⟨h₁, h₂, h₃, h₄⟩ := h.tail_eq h₀
  have hmod := mod_lt (t.hi - 1)
  simp only [pageAt, storeStart, storeEnd, storePages, pageWords] at *
  omega

/-- The page a record over the end begins in. -/
theorem Disk.page_newStart (h : Disk t spare flash) :
    newStart t / pageWords =
      64 + (if 0 < firstPart t then t.hi - 1 else t.hi) % storePages := by
  by_cases hr : 0 < firstPart t
  · obtain ⟨-, h₁, h₂⟩ := h.firstPart_pos hr
    rw [if_pos hr, h₂]
    exact (h.page_tail (by omega)).2.1
  · have hadd := h.newStart_add
    rw [if_neg hr]
    have hmod := mod_lt t.hi
    simp only [pageAt, storeStart, storePages, pageWords] at *
    omega

/-- **The target of a write is erased.** -/
theorem Placed.blank {f W : List Word} {ptr n : ℕ} (hp : Placed t spare f W ptr n)
    (h : Disk t spare flash) (hf : IsRecord f) {i : ℕ} (hi : i < W.length) :
    flash (ptr + i) = erasedWord := by
  cases hp with
  | inPage hle => exact h.tail_blank (by omega)
  | turning hlt hc =>
    obtain ⟨hnext, rfl⟩ := hc
    have hshort := hf.short
    rw [List.length_append, List.length_singleton] at hi
    by_cases hr : i < firstPart t
    · obtain ⟨-, h₁, h₂⟩ := h.firstPart_pos (by omega)
      rw [h₂]
      exact h.tail_blank (by omega)
    · have hadd := h.newStart_add
      have := holds_nil_iff.1 (h.next hnext) (i - firstPart t)
        (by simp only [bufferSize, pageWords] at *; omega)
      rwa [show pageAt (t.hi % storePages) + (i - firstPart t) = newStart t + i by omega] at this

/-- A sequence record may follow the record, and then there is one more
page. -/
theorem Placed.words_prefix {f W : List Word} {ptr n : ℕ} (hp : Placed t spare f W ptr n) :
    f <+: W ∧ t.hi ≤ n := by
  cases hp with
  | inPage => exact ⟨List.prefix_refl f, le_rfl⟩
  | turning => exact ⟨List.prefix_append f _, Nat.le_succ _⟩

/-- The first word written is not an erased one. -/
theorem Placed.first_ne {f W : List Word} {ptr n : ℕ} (hp : Placed t spare f W ptr n)
    (hf : IsRecord f) : burn flash ptr W ptr ≠ erasedWord := by
  obtain ⟨l, rfl⟩ := hp.words_prefix.1
  cases f with
  | nil => exact absurd rfl hf.frame.ne_nil
  | cons v vs =>
    have hb : burn flash ptr (v :: vs ++ l) (ptr + 0) = v := burn_at (by simp)
    rw [Nat.add_zero] at hb
    rw [hb]
    exact hf.ne_erased v (List.mem_cons_self ..)

/-- All words are written within the store. -/
theorem Placed.within_words {f W : List Word} {ptr n : ℕ} (hp : Placed t spare f W ptr n)
    (h : Disk t spare flash) (hf : IsRecord f) :
    storeStart ≤ ptr ∧ ptr + W.length ≤ storeEnd := by
  have hpos := hf.length_pos
  have hshort := hf.short
  cases hp with
  | inPage hle =>
    obtain ⟨-, -, h₁, h₂⟩ := h.page_tail (by omega)
    omega
  | turning hlt hc =>
    have hadd := h.newStart_add
    have hmod := mod_lt t.hi
    have hle := firstPart_le t
    rw [List.length_append, List.length_singleton]
    by_cases hr : 0 < firstPart t
    · obtain ⟨h₁, -, h₂⟩ := h.firstPart_pos hr
      obtain ⟨-, -, h₃, -⟩ := h.page_tail (by omega)
      simp only [pageAt, storeStart, storeEnd, storePages, pageWords, bufferSize] at *
      omega
    · simp only [pageAt, storeStart, storeEnd, storePages, pageWords, bufferSize] at *
      omega

/-- A record is written within the store. -/
theorem Placed.within {f W : List Word} {ptr n : ℕ} (hp : Placed t spare f W ptr n)
    (h : Disk t spare flash) (hf : IsRecord f) :
    storeStart ≤ ptr ∧ ptr + f.length ≤ storeEnd := by
  have hle := hp.words_prefix.1.length_le
  obtain ⟨h₁, h₂⟩ := hp.within_words h hf
  exact ⟨h₁, by omega⟩

/-! ## A write, cut anywhere -/

theorem mem_entries_append {e f : Option ℕ × List Word} {u : ℕ} (h : f ∈ (t.append e).entries u) :
    f ∈ t.entries u ∨ (u + 1 = t.hi ∧ f = e) := by
  simp only [Tape.append] at h
  split at h
  · rcases List.mem_append.1 h with h | h
    · exact Or.inl h
    · exact Or.inr ⟨‹_›, List.mem_singleton.1 h⟩
  · exact Or.inl h

theorem mem_entries_turn {r : ℕ} {e f : Option ℕ × List Word} {es : List (Option ℕ × List Word)}
    {u : ℕ} (hu : u < t.hi + 1) (h : f ∈ (t.turn r e es).entries u) :
    (u < t.hi ∧ f ∈ t.entries u) ∨ (f = e ∧ u + (if 0 < r then 1 else 0) = t.hi) ∨ f ∈ es := by
  simp only [Tape.turn] at h
  split at h
  · split at h
    · exact Or.inr (Or.inr h)
    · rcases List.mem_cons.1 h with h | h
      · exact Or.inr (Or.inl ⟨h, by rw [if_neg ‹_›]; omega⟩)
      · exact Or.inr (Or.inr h)
  · split at h
    · rcases List.mem_append.1 h with h | h
      · exact Or.inl ⟨by omega, h⟩
      · exact Or.inr (Or.inl ⟨List.mem_singleton.1 h, by rw [if_pos (by omega)]; omega⟩)
    · exact Or.inl ⟨by omega, h⟩

theorem tags_append (hlt : t.lo < t.hi) (e : Option ℕ × List Word) :
    tags (t.append e) = tags t ++ e.1.toList := by
  rw [tags, Tape.contents_append t hlt, List.filterMap_append]
  rcases e with ⟨_ | i, ws⟩ <;> rfl

/-- A record that adds nothing to the tape. -/
theorem Linked.lost (h : Linked t rs) {r : Appended} (hcut : r.status ≠ .completed)
    (hwithin : ∀ a, r.start = some a → storeStart ≤ a ∧ a + r.words.length ≤ storeEnd) :
    Linked t (rs ++ [r]) :=
  h.extend [] (by rw [List.append_nil]) (Or.inl rfl) (fun _ h₁ h₂ _ he => Or.inl ⟨h₁, h₂, he⟩)
    (fun hc => absurd hc hcut) hwithin

/-- A record of which the tape has a piece. -/
theorem Linked.pieceOf (h : Linked t rs) (hlt : t.lo < t.hi) {r : Appended} {ws : List Word}
    (hcut : r.status ≠ .completed) (hws : ¬ Accepts ws)
    (hwithin : ∀ a, r.start = some a → storeStart ≤ a ∧ a + r.words.length ≤ storeEnd) :
    Linked (t.append (none, ws)) (rs ++ [r]) := by
  refine h.extend [] (tags_append hlt _) (Or.inl rfl) (fun u h₁ h₂ e he => ?_)
    (fun hc => absurd hc hcut) hwithin
  rcases mem_entries_append he with he | ⟨-, rfl⟩
  · exact Or.inl ⟨h₁, h₂, he⟩
  · exact Or.inr (Or.inl ⟨rfl, hws⟩)

/-- **A piece at the end of the newest page.** -/
theorem Placed.cut_inPage (h : Disk t spare flash) (hl : Linked t rs) {r : Appended}
    (hf : IsRecord r.words) (hcut : r.status ≠ .completed)
    (hwithin : ∀ a, r.start = some a → storeStart ≤ a ∧ a + r.words.length ≤ storeEnd) {k : ℕ}
    (hk : k < r.words.length) (hroom : k ≤ roomOf t) :
    ∃ t', t'.hi = t.hi ∧ t'.lo = t.lo ∧ Disk t' spare (burn flash (tailOf t) (r.words.take k)) ∧
      Linked t' (rs ++ [r]) := by
  rcases Nat.eq_zero_or_pos k with rfl | hpos
  · rw [List.take_zero, burn_nil]
    exact ⟨t, rfl, rfl, h, hl.lost hcut hwithin⟩
  · have hlt := (h.page_tail (by omega)).1
    refine ⟨t.append (none, r.words.take k), rfl, rfl, ?_,
      hl.pieceOf hlt hcut (hf.not_accepts_take hpos hk) hwithin⟩
    exact h.append hlt (hf.frame.take hpos) (fun w hw => hf.ne_erased w (List.mem_of_mem_take hw))
      (by rw [List.length_take]; omega)

/-- **Cut before its last word, a write leaves a tape.** -/
theorem Placed.cut {r : Appended} {W : List Word} {ptr n : ℕ} (hp : Placed t spare r.words W ptr n)
    (h : Disk t spare flash) (hl : Linked t rs) (hf : IsRecord r.words)
    (hcut : r.status ≠ .completed)
    (hwithin : ∀ a, r.start = some a → storeStart ≤ a ∧ a + r.words.length ≤ storeEnd) {k : ℕ}
    (hk : k < W.length) :
    ∃ t' spare', t'.hi = t.hi ∧ Disk t' spare' (burn flash ptr (W.take k)) ∧
      Linked t' (rs ++ [r]) := by
  cases hp with
  | inPage hle =>
    obtain ⟨t', h₁, -, h₂, h₃⟩ := Placed.cut_inPage h hl hf hcut hwithin hk (by omega)
    exact ⟨t', spare, h₁, h₂, h₃⟩
  | turning hlt hc =>
    rw [List.length_append, List.length_singleton] at hk
    -- the sequence record is the last word: it is not there
    rw [List.take_append_of_le_length (by omega)]
    have hfirst := firstPart_le t
    by_cases hin : k ≤ firstPart t
    · rcases Nat.eq_zero_or_pos k with rfl | hpos
      · rw [List.take_zero, burn_nil]
        exact ⟨t, spare, rfl, h, hl.lost hcut hwithin⟩
      · rw [(h.firstPart_pos (by omega)).2.2]
        obtain ⟨t', h₁, -, h₂, h₃⟩ :=
          Placed.cut_inPage h hl hf hcut hwithin (by omega : k < r.words.length)
          (by omega)
        exact ⟨t', spare, h₁, h₂, h₃⟩
    · -- what is in the next page is no part of the tape yet
      rw [burn_newStart h, List.take_take, Nat.min_eq_left (by omega)]
      have hmem : ∀ w ∈ (r.words.take k).drop (firstPart t), w ∈ r.words :=
        fun w hw => List.mem_of_mem_take (List.mem_of_mem_drop hw)
      have hlen : ((r.words.take k).drop (firstPart t)).length ≤ pageWords := by
        have hshort := hf.short
        simp only [List.length_drop, List.length_take, bufferSize, pageWords] at *
        omega
      by_cases hr : 0 < firstPart t
      · obtain ⟨h₀, h₁, h₂⟩ := h.firstPart_pos hr
        obtain ⟨t', hhi, hlo, h₃, h₄⟩ := Placed.cut_inPage h hl hf hcut hwithin
          (k := firstPart t) (by omega) (by omega)
        rw [h₂]
        have hc' : Cleared t' spare := by
          unfold Cleared
          rw [hhi, hlo]
          exact hc
        have := h₃.leave hc' hlen (fun w hw => hf.ne_erased w (hmem w hw)) (hf.findSome?_eq hmem)
        rw [hhi] at this
        exact ⟨t', _, hhi, this, h₄⟩
      · obtain hr : firstPart t = 0 := by omega
        rw [hr] at hmem hlen ⊢
        rw [List.take_zero, burn_nil]
        exact ⟨t, _, rfl, h.leave hc hlen (fun w hw => hf.ne_erased w (hmem w hw))
          (hf.findSome?_eq hmem), hl.lost hcut hwithin⟩

/-- The tape of a record that goes over the end of it, with the sequence record
behind. -/
theorem Disk.turn_record (h : Disk t spare flash) (hc : Cleared t spare) {ws : List Word}
    (hf : IsRecord ws) (hlt : roomOf t < ws.length) (hn : t.hi + 1 < 2 ^ 26 - 1)
    (tag : Option ℕ) :
    Disk (t.turn (firstPart t) (tag, ws) [(none, [sequenceWord (pageNumber t.hi)])]) []
      (burn flash (newStart t) (ws ++ [sequenceWord (pageNumber t.hi)])) := by
  have hfirst := firstPart_le t
  have hshort := hf.short
  have hwords : (Tape.words [((none : Option ℕ), [sequenceWord (pageNumber t.hi)])]) =
      [sequenceWord (pageNumber t.hi)] := rfl
  have hlen : (ws.drop (firstPart t) ++ [sequenceWord (pageNumber t.hi)]).length ≤ pageWords := by
    simp only [List.length_append, List.length_drop, List.length_singleton, bufferSize,
      pageWords] at *
    omega
  have hmark : (ws.drop (firstPart t) ++ [sequenceWord (pageNumber t.hi)]).findSome? markIn =
      some (t.hi + 1) := by
    rw [List.findSome?_append, hf.findSome?_eq fun w hw => List.mem_of_mem_drop hw]
    simp [markIn_pageNumber (by omega : t.hi + 1 < 2 ^ 26)]
  have hturn := h.turn hc [(none, [sequenceWord (pageNumber t.hi)])] (r := firstPart t)
    (e := (tag, ws)) hf.frame
    (fun f hf' => by
      obtain rfl := List.mem_singleton.1 hf'
      exact isFrame_sequenceWord hn)
    (fun hr => ⟨by simp only; omega, (h.firstPart_pos hr).1, (h.firstPart_pos hr).2.1⟩)
    hlen hf.ne_erased
    (fun w hw => by
      obtain rfl := List.mem_singleton.1 hw
      exact sequenceWord_pageNumber_ne hn)
    hmark
  rw [hwords] at hturn
  rw [burn_newStart h, List.take_append_of_le_length (by omega),
    List.drop_append_of_le_length (by omega)]
  by_cases hr : 0 < firstPart t
  · rw [(h.firstPart_pos hr).2.2]
    exact hturn
  · -- the record begins in the new page
    have hr₀ : firstPart t = 0 := by omega
    rw [hr₀, List.take_zero, burn_nil] at hturn ⊢
    exact hturn

/-- **A write through to its end puts the record on the tape.** -/
theorem Placed.done {r : Appended} {W : List Word} {ptr n : ℕ} (hp : Placed t spare r.words W ptr n)
    (h : Disk t spare flash) (hl : Linked t rs) (hf : IsRecord r.words) (hn : n < 2 ^ 26 - 1)
    (hstatus : r.status = .completed ∨ r.status = .cut) (hstart : r.start = some ptr) :
    ∃ t' spare', t'.hi = n ∧ tailOf t' = ptr + W.length ∧ Disk t' spare' (burn flash ptr W) ∧
      Linked t' (rs ++ [r]) := by
  have hpos := hf.length_pos
  have hwithin : ∀ a, r.start = some a → storeStart ≤ a ∧ a + r.words.length ≤ storeEnd := by
    intro a ha
    obtain rfl := Option.some.inj (hstart.symm.trans ha)
    exact hp.within h hf
  cases hp with
  | inPage hle =>
    obtain ⟨hlt, hpage, -, -⟩ := h.page_tail (by omega)
    refine ⟨t.append (some rs.length, r.words), spare, rfl, ?_,
      h.append hlt hf.frame hf.ne_erased hle, ?_⟩
    · have hhi : t.hi - 1 + 1 = t.hi := by omega
      simp only [tailOf, Tape.append, if_neg (by omega : ¬ t.hi = 0), if_pos hhi,
        List.length_append]
      omega
    · refine hl.extend [rs.length] (tags_append hlt _) (Or.inr rfl) (fun u h₁ h₂ e he => ?_)
        (fun _ _ => rfl)
        hwithin
      rcases mem_entries_append he with he | ⟨hu, rfl⟩
      · exact Or.inl ⟨h₁, h₂, he⟩
      · obtain rfl : u = t.hi - 1 := by omega
        exact Or.inr (Or.inr ⟨rfl, hf.accepts, hstatus, _, hstart, hpage⟩)
  | turning hlt hc =>
    have hfirst := firstPart_le t
    have hadd := h.newStart_add
    refine ⟨t.turn (firstPart t) (some rs.length, r.words)
      [(none, [sequenceWord (pageNumber t.hi)])], [], rfl, ?_, h.turn_record hc hf hlt hn _, ?_⟩
    · change (if t.hi + 1 = 0 then _ else pageAt (t.hi % storePages) +
        ((t.turn (firstPart t) (some rs.length, r.words) _).cells t.hi).length) = _
      rw [if_neg (Nat.succ_ne_zero t.hi), Tape.turn_cells_new]
      simp only [Tape.words, List.map_cons, List.map_nil, List.flatten_cons, List.flatten_nil,
        List.append_nil, List.length_append, List.length_drop, List.length_singleton]
      omega
    · refine hl.extend [rs.length] ?_ (Or.inr rfl) (fun u h₁ h₂ e he => ?_)
        (fun _ _ => rfl) hwithin
      · rw [tags, Tape.contents_turn t h.laid.le (fun hr => (h.firstPart_pos hr).1),
          List.filterMap_append]
        rfl
      · rcases mem_entries_turn h₂ he with ⟨h₃, he⟩ | ⟨rfl, hu⟩ | he
        · exact Or.inl ⟨h₁, h₃, he⟩
        · refine Or.inr (Or.inr ⟨rfl, hf.accepts, hstatus, _, hstart, ?_⟩)
          rw [h.page_newStart]
          split at hu <;> simp only [*, if_true, if_false] <;> congr 2 <;> omega
        · obtain rfl := List.mem_singleton.1 he
          exact Or.inr (Or.inl ⟨rfl, not_accepts_sequenceWord _⟩)

end Placed

end App

end AntTracer
