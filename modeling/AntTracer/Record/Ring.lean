import Mathlib.Data.List.GetD
import AntTracer.Record.Scan

/-!
# Reading a ring of pages

Page advance number `u` puts sequence number `u + 1` into physical page
`u % N`. If the pages that carry a sequence record are those of the advances
`lo .. hi`, then `readFlash` finds `lo` as the oldest and `hi` as the newest,
and the words it imports are the words of the pages in that order
(`stream_eq`).
-/

namespace AntTracer

/-- The address of physical page `k`. -/
abbrev Region.pageAddr (g : Region) (k : ℕ) : ℕ := g.start + k * g.pageStep

/-- A region of `N` whole pages that does not begin at address zero. -/
structure Region.Paged (g : Region) (N : ℕ) : Prop where
  /-- there is a page -/
  pos : 0 < N
  /-- a null page pointer means that no page was found -/
  start_pos : 0 < g.start
  stride_pos : 0 < g.stride
  /-- the region is its pages -/
  stop_eq : g.stop = g.pageAddr N

/-- The sequence number `readFlash` finds in physical page `k`. -/
abbrev Region.markOf (g : Region) (word : ℕ → Word) (k : ℕ) : Option ℕ :=
  scanPage word g.stride pageWords (g.pageAddr k)

section Bounds

variable {g : Region} {N : ℕ} {word : ℕ → Word}

theorem Region.Paged.pageStep_pos (hg : g.Paged N) : 0 < g.pageStep :=
  Nat.mul_pos (by decide) hg.stride_pos

theorem Region.Paged.rounds_eq (hg : g.Paged N) : g.rounds = N + 1 := by
  have h := hg.stop_eq
  have hpos := hg.pageStep_pos
  unfold Region.rounds
  rw [h, Nat.add_sub_cancel_left, Nat.mul_div_cancel _ hpos]

theorem Region.Paged.pageAddr_lt (hg : g.Paged N) {k : ℕ} : g.pageAddr k < g.stop ↔ k < N := by
  have hpos := hg.pageStep_pos
  rw [hg.stop_eq]
  simp only [Region.pageAddr, Nat.add_lt_add_iff_left]
  exact Nat.mul_lt_mul_right hpos

theorem Region.pageAddr_succ (g : Region) (k : ℕ) :
    g.pageAddr (k + 1) = g.pageAddr k + g.pageStep := by
  simp only [Region.pageAddr, Nat.add_mul, Nat.one_mul, Nat.add_assoc]

/-- The bounds after the physical pages below `n`: each is attained, and
bounds every sequence number seen. -/
structure Bounds.Spans (b : Bounds) (g : Region) (word : ℕ → Word) (n : ℕ) : Prop where
  le_newq : ∀ k < n, ∀ q, g.markOf word k = some q → q ≤ b.newq
  oldq_le : ∀ k < n, ∀ q, g.markOf word k = some q → b.oldq ≤ q
  new : (b.newq = 0 ∧ b.newp = 0) ∨
    ∃ k < n, g.markOf word k = some b.newq ∧ b.newp = g.pageAddr k
  old : b.oldq = 0xffffffff ∨ ∃ k < n, g.markOf word k = some b.oldq ∧ b.oldp = g.pageAddr k

/-- What `note` does to the newest page. -/
theorem Bounds.note_new (b : Bounds) (page q : ℕ) :
    (b.newq < q ∧ (b.note page (some q)).newq = q ∧ (b.note page (some q)).newp = page) ∨
      (q ≤ b.newq ∧ (b.note page (some q)).newq = b.newq ∧
        (b.note page (some q)).newp = b.newp) := by
  unfold Bounds.note
  by_cases h₁ : q < b.oldq <;> by_cases h₂ : b.newq < q <;> simp [h₁, h₂] <;> omega

/-- What `note` does to the oldest page. -/
theorem Bounds.note_old (b : Bounds) (page q : ℕ) :
    (q < b.oldq ∧ (b.note page (some q)).oldq = q ∧ (b.note page (some q)).oldp = page) ∨
      (b.oldq ≤ q ∧ (b.note page (some q)).oldq = b.oldq ∧
        (b.note page (some q)).oldp = b.oldp) := by
  unfold Bounds.note
  by_cases h₁ : q < b.oldq <;> by_cases h₂ : b.newq < q <;> simp [h₁, h₂] <;> omega

theorem Bounds.Spans.note {b : Bounds} {n : ℕ} (h : b.Spans g word n) :
    (b.note (g.pageAddr n) (g.markOf word n)).Spans g word (n + 1) := by
  have hlast : ∀ k, k < n + 1 → k < n ∨ k = n := fun k hk => by omega
  have hnew : (b.newq = 0 ∧ b.newp = 0) ∨
      ∃ k < n + 1, g.markOf word k = some b.newq ∧ b.newp = g.pageAddr k :=
    h.new.imp id fun ⟨k, hk, e⟩ => ⟨k, by omega, e⟩
  have hold : b.oldq = 0xffffffff ∨
      ∃ k < n + 1, g.markOf word k = some b.oldq ∧ b.oldp = g.pageAddr k :=
    h.old.imp id fun ⟨k, hk, e⟩ => ⟨k, by omega, e⟩
  cases hm : g.markOf word n with
  | none =>
    refine ⟨fun k hk q hq => ?_, fun k hk q hq => ?_, hnew, hold⟩
    · rcases hlast k hk with hk | rfl
      · exact h.le_newq k hk q hq
      · rw [hm] at hq
        cases hq
    · rcases hlast k hk with hk | rfl
      · exact h.oldq_le k hk q hq
      · rw [hm] at hq
        cases hq
  | some q =>
    have hmark : ∀ k, k < n + 1 → ∀ q', g.markOf word k = some q' →
        q' = q ∨ (q' ≤ b.newq ∧ b.oldq ≤ q') := by
      intro k hk q' hq
      rcases hlast k hk with hk | rfl
      · exact Or.inr ⟨h.le_newq k hk q' hq, h.oldq_le k hk q' hq⟩
      · rw [hm] at hq
        exact Or.inl (Option.some.inj hq).symm
    have hn := b.note_new (g.pageAddr n) q
    have ho := b.note_old (g.pageAddr n) q
    refine ⟨fun k hk q' hq => ?_, fun k hk q' hq => ?_, ?_, ?_⟩
    · have := hmark k hk q' hq
      omega
    · have := hmark k hk q' hq
      omega
    · rcases hn with ⟨-, h₁, h₂⟩ | ⟨-, h₁, h₂⟩
      · exact Or.inr ⟨n, by omega, by rw [h₁, hm], h₂⟩
      · rw [h₁, h₂]
        exact hnew
    · rcases ho with ⟨-, h₁, h₂⟩ | ⟨-, h₁, h₂⟩
      · exact Or.inr ⟨n, by omega, by rw [h₁, hm], h₂⟩
      · rw [h₁, h₂]
        exact hold

theorem findBounds_spans (word : ℕ → Word) (hg : g.Paged N) :
    (findBounds g word).Spans g word N := by
  have hpages : ∀ m n (b : Bounds), b.Spans g word n → n + m = N →
      (scanPages g word (m + 1) (g.pageAddr n) b).Spans g word N := by
    intro m
    induction m with
    | zero =>
      intro n b hb hn
      obtain rfl : n = N := by omega
      rw [scanPages, if_neg (by rw [hg.pageAddr_lt]; exact lt_irrefl _)]
      exact hb
    | succ m ih =>
      intro n b hb hn
      rw [scanPages, if_pos (hg.pageAddr_lt.2 (by omega)), ← Region.pageAddr_succ]
      exact ih (n + 1) _ hb.note (by omega)
  rw [findBounds, hg.rounds_eq]
  have h := hpages N 0 Bounds.init ⟨by omega, by omega, Or.inl ⟨rfl, rfl⟩, Or.inl rfl⟩ (by omega)
  simpa only [Region.pageAddr, Nat.zero_mul, Nat.add_zero] using h

/-- **A store without a sequence record** is not read at all. -/
theorem findBounds_of_blank (hg : g.Paged N) (h : ∀ k < N, g.markOf word k = none) :
    (findBounds g word).newp = 0 := by
  rcases (findBounds_spans word hg).new with h' | ⟨k, hk, hm, -⟩
  · exact h'.2
  · rw [h k hk] at hm
    cases hm

end Bounds

/-! ## The pages in order -/

/-- The pages that carry a sequence record are those of the page advances
`lo .. hi`. -/
structure Region.Ring (g : Region) (N : ℕ) (word : ℕ → Word) (lo hi : ℕ) : Prop where
  le : lo ≤ hi
  /-- at most one lap -/
  lt : hi < lo + N
  /-- each live page has its number -/
  mark : ∀ u, lo ≤ u → u ≤ hi → g.markOf word (u % N) = some (u + 1)
  /-- and no other page has one -/
  blank : ∀ k < N, (∀ u, lo ≤ u → u ≤ hi → u % N ≠ k) → g.markOf word k = none

section Ring

variable {g : Region} {N : ℕ} {word : ℕ → Word} {lo hi : ℕ}

/-- **The oldest and the newest page** are found. -/
theorem Region.Ring.findBounds_eq (hg : g.Paged N) (h : g.Ring N word lo hi) :
    findBounds g word = ⟨g.pageAddr (lo % N), lo + 1, g.pageAddr (hi % N), hi + 1⟩ := by
  have hs := findBounds_spans word hg
  have hmod : ∀ u, u % N < N := fun u => Nat.mod_lt u hg.pos
  have hle := h.le
  have hlast := hs.le_newq _ (hmod hi) _ (h.mark hi h.le le_rfl)
  have hfirst := hs.oldq_le _ (hmod lo) _ (h.mark lo le_rfl h.le)
  have hlo : lo + 1 < 2 ^ 26 := scanPage_lt _ _ _ (h.mark lo le_rfl h.le)
  -- a page with a sequence number is one of the ring
  have hlive : ∀ k < N, ∀ q, g.markOf word k = some q →
      ∃ u, lo ≤ u ∧ u ≤ hi ∧ u % N = k ∧ q = u + 1 := by
    intro k hk q hq
    by_contra hno
    push Not at hno
    have := h.blank k hk fun u h₁ h₂ h₃ => by
      have hm := h.mark u h₁ h₂
      rw [h₃, hq] at hm
      exact hno u h₁ h₂ h₃ (Option.some.inj hm)
    rw [this] at hq
    cases hq
  rcases hs.new with ⟨h₀, -⟩ | ⟨k, hk, hm, hp⟩
  · omega
  obtain ⟨u, h₁, h₂, rfl, hq⟩ := hlive k hk _ hm
  obtain rfl : u = hi := by omega
  rcases hs.old with h₀ | ⟨k, hk, hm', hp'⟩
  · omega
  obtain ⟨v, h₃, h₄, rfl, hq'⟩ := hlive k hk _ hm'
  obtain rfl : v = lo := by omega
  rw [← hp, ← hp', ← hq, ← hq']

/-- The words of the pages of `n` advances from `u` on. -/
def Region.pagesFrom (g : Region) (N : ℕ) (word : ℕ → Word) (u : ℕ) : ℕ → List Word
  | 0 => []
  | n + 1 => pageStream g word pageWords (g.pageAddr (u % N)) ++ g.pagesFrom N word (u + 1) n

/-- The address of the next page, as `readFlash` steps to it. -/
theorem Region.Paged.wrap_next (hg : g.Paged N) (u : ℕ) :
    g.wrap (g.pageAddr (u % N) + g.pageStep) = g.pageAddr ((u + 1) % N) := by
  have hN := hg.pos
  rw [← Region.pageAddr_succ]
  unfold Region.wrap
  have hlt := Nat.mod_lt u hN
  have hmod : (u + 1) % N = if u % N + 1 < N then u % N + 1 else 0 := by
    rw [Nat.add_mod]
    by_cases h1 : N = 1
    · subst h1
      simp [Nat.mod_one]
    · rw [Nat.mod_eq_of_lt (by omega : 1 < N)]
      split
      · exact Nat.mod_eq_of_lt ‹_›
      · rw [show u % N + 1 = N by omega, Nat.mod_self]
  rw [hmod]
  by_cases h : u % N + 1 < N
  · rw [if_neg (by have := hg.pageAddr_lt.2 h; omega), if_pos h]
  · have hge := mt hg.pageAddr_lt.1 h
    rw [if_pos (by omega), if_neg h]
    simp [Region.pageAddr]

theorem Region.Paged.pageAddr_inj (hg : g.Paged N) {j k : ℕ} (h : g.pageAddr j = g.pageAddr k) :
    j = k := by
  simp only [Region.pageAddr, Nat.add_left_cancel_iff] at h
  exact Nat.eq_of_mul_eq_mul_right hg.pageStep_pos h

/-- Less than a lap on, the page is another one. -/
theorem Region.Paged.pageAddr_ne (hg : g.Paged N) {u n : ℕ} (hpos : 0 < n) (hn : n < N) :
    g.pageAddr (u % N) ≠ g.pageAddr ((u + n) % N) := by
  intro h
  have hdvd : N ∣ u + n - u := (Nat.modEq_iff_dvd' (by omega)).1 (hg.pageAddr_inj h)
  rw [Nat.add_sub_cancel_left] at hdvd
  exact absurd (Nat.le_of_dvd hpos hdvd) (by omega)

/-- `importPages` feeds the pages in order, and a blank word at the end. -/
theorem pagesStream_eq (word : ℕ → Word) (hg : g.Paged N) (n : ℕ) : ∀ (u page : ℕ),
    g.wrap page = g.pageAddr (u % N) → n < N → ∀ fuel, n < fuel →
    pagesStream g word (g.pageAddr ((u + n) % N)) fuel page =
      g.pagesFrom N word u (n + 1) ++ [erasedWord] := by
  induction n with
  | zero =>
    intro u page hp _ fuel hf
    obtain ⟨f, rfl⟩ : ∃ f, fuel = f + 1 := ⟨fuel - 1, by omega⟩
    simp only [pagesStream]
    rw [hp, Nat.add_zero, if_pos rfl, Region.pagesFrom, Region.pagesFrom, List.append_nil]
  | succ n ih =>
    intro u page hp hn fuel hf
    obtain ⟨f, rfl⟩ : ∃ f, fuel = f + 1 := ⟨fuel - 1, by omega⟩
    -- the page is not the newest yet
    have hne := hg.pageAddr_ne (u := u) (n.succ_pos) hn
    simp only [pagesStream]
    rw [hp, if_neg hne, show u + (n + 1) = u + 1 + n by omega,
      ih (u + 1) _ (hg.wrap_next u) (by omega) f (by omega),
      Region.pagesFrom.eq_2 g N word u (n + 1), List.append_assoc]

/-- **The stream of a ring**: the pages in the order of their advances. -/
theorem Region.Ring.stream_eq (hg : g.Paged N) (h : g.Ring N word lo hi) :
    stream g word = g.pagesFrom N word lo (hi - lo + 1) ++ [erasedWord] := by
  have hle := h.le
  have hlt := h.lt
  have hstart := hg.start_pos
  rw [stream, h.findBounds_eq hg]
  dsimp only
  rw [if_pos (by simp only [Region.pageAddr]; omega), hg.rounds_eq]
  have hwrap : g.wrap (g.pageAddr (lo % N)) = g.pageAddr (lo % N) := by
    have := hg.pageAddr_lt.2 (Nat.mod_lt lo hg.pos)
    exact if_neg (by omega)
  have heq := pagesStream_eq word hg (hi - lo) lo _ hwrap (by omega) (N + 1) (by omega)
  rwa [show lo + (hi - lo) = hi by omega] at heq

end Ring

/-! ## What a page holds -/

/-- The sequence number of a sequence record's word. -/
def markIn (w : Word) : Option ℕ :=
  if IsStart w ∧ recordType w = rtSequence then some (w &&& rdMask).toNat else none

/-- The word of a sequence record. -/
def sequenceWord (sequence : Word) : Word :=
  recordBit ||| (rtSequence <<< rtShift) ||| (sequence &&& rdMask)

theorem toNat_sequenceWord (w : Word) : (sequenceWord w).toNat = 0xfc000000 + w.toNat % 2 ^ 26 := by
  have hlt : w.toNat % 2 ^ 26 < 2 ^ 26 := Nat.mod_lt _ (by decide)
  have hor : 0xfc000000 ||| w.toNat % 2 ^ 26 = 0xfc000000 + w.toNat % 2 ^ 26 :=
    (Nat.two_pow_add_eq_or_of_lt hlt 0x3f).symm
  rw [sequenceWord, show recordBit ||| (rtSequence <<< rtShift) = 0xfc000000#32 by decide,
    BitVec.toNat_or, show rdMask = mask 26 by decide, toNat_and_mask (by decide)]
  exact hor

theorem isStart_sequenceWord (w : Word) : IsStart (sequenceWord w) := by
  rw [isStart_iff_msb, BitVec.msb_eq_decide, decide_eq_true_eq, toNat_sequenceWord]
  omega

theorem recordType_sequenceWord (w : Word) : recordType (sequenceWord w) = rtSequence := by
  apply BitVec.eq_of_toNat_eq
  rw [recordType, show rtMask = mask 5 by decide, toNat_and_mask (by decide),
    BitVec.toNat_ushiftRight, toNat_sequenceWord, Nat.shiftRight_eq_div_pow]
  simp only [rtShift, BitVec.toNat_ofNat]
  omega

theorem markIn_sequenceWord (w : Word) : markIn (sequenceWord w) = some (w.toNat % 2 ^ 26) := by
  rw [markIn, if_pos ⟨isStart_sequenceWord w, recordType_sequenceWord w⟩,
    show rdMask = mask 26 by decide, toNat_and_mask (by decide), toNat_sequenceWord]
  congr 1
  omega

/-- The sequence number of page advance `u`. -/
def pageNumber (u : ℕ) : Word := BitVec.ofNat 32 (u + 1)

theorem toNat_pageNumber {u : ℕ} (h : u + 1 < 2 ^ 32) : (pageNumber u).toNat = u + 1 := by
  rw [pageNumber, BitVec.toNat_ofNat, Nat.mod_eq_of_lt h]

theorem markIn_pageNumber {u : ℕ} (h : u + 1 < 2 ^ 26) :
    markIn (sequenceWord (pageNumber u)) = some (u + 1) := by
  rw [markIn_sequenceWord, toNat_pageNumber (by omega), Nat.mod_eq_of_lt h]

theorem sequenceWord_pageNumber_ne {u : ℕ} (h : u + 1 < 2 ^ 26 - 1) :
    sequenceWord (pageNumber u) ≠ erasedWord := by
  intro heq
  have := toNat_sequenceWord (pageNumber u)
  rw [heq, toNat_pageNumber (by omega)] at this
  simp only [erasedWord, BitVec.toNat_ofNat] at this
  omega

/-- Page `k` holds these words, and is erased from there on. -/
structure Region.Holds (g : Region) (word : ℕ → Word) (k : ℕ) (l : List Word) : Prop where
  length_le : l.length ≤ pageWords
  /-- an erased word would end the page -/
  ne_erased : ∀ w ∈ l, w ≠ erasedWord
  word_eq : ∀ i < pageWords, word (g.pageAddr k + i * g.stride) = l.getD i erasedWord

section Holds

variable {g : Region} {word : ℕ → Word} {k : ℕ} {l : List Word}

theorem pageStream_of_words (n : ℕ) : ∀ (rp : ℕ) (l : List Word), l.length ≤ n →
    (∀ w ∈ l, w ≠ erasedWord) → (∀ i < n, word (rp + i * g.stride) = l.getD i erasedWord) →
    pageStream g word n rp = l ++ if l.length < n then [erasedWord] else [] := by
  induction n with
  | zero =>
    intro rp l hl _ _
    obtain rfl : l = [] := List.eq_nil_of_length_eq_zero (by omega)
    rfl
  | succ n ih =>
    intro rp l hl hne hw
    have h₀ := hw 0 (by omega)
    rw [Nat.zero_mul, Nat.add_zero] at h₀
    rw [pageStream, h₀]
    cases l with
    | nil => simp
    | cons w l =>
      have hw₀ : w ≠ erasedWord := hne w (List.mem_cons_self ..)
      rw [List.getD_cons_zero, if_neg hw₀, ih (rp + g.stride) l (by simpa using hl)
        (fun v hv => hne v (List.mem_cons_of_mem _ hv)) fun i hi => ?_]
      · simp
      · rw [show rp + g.stride + i * g.stride = rp + (i + 1) * g.stride by ring,
          hw (i + 1) (by omega)]
        rfl

theorem scanPage_of_words (n : ℕ) : ∀ (rp : ℕ) (l : List Word), l.length ≤ n →
    (∀ w ∈ l, w ≠ erasedWord) → (∀ i < n, word (rp + i * g.stride) = l.getD i erasedWord) →
    scanPage word g.stride n rp = l.findSome? markIn := by
  induction n with
  | zero =>
    intro rp l hl _ _
    obtain rfl : l = [] := List.eq_nil_of_length_eq_zero (by omega)
    rfl
  | succ n ih =>
    intro rp l hl hne hw
    have h₀ := hw 0 (by omega)
    rw [Nat.zero_mul, Nat.add_zero] at h₀
    rw [scanPage, h₀]
    cases l with
    | nil => simp
    | cons w l =>
      have hw₀ : w ≠ erasedWord := hne w (List.mem_cons_self ..)
      have hrest := ih (rp + g.stride) l (by simpa using hl)
        (fun v hv => hne v (List.mem_cons_of_mem _ hv)) fun i hi => by
          rw [show rp + g.stride + i * g.stride = rp + (i + 1) * g.stride by ring,
            hw (i + 1) (by omega)]
          rfl
      simp only [List.getD_cons_zero, if_neg hw₀, hrest, List.findSome?_cons, markIn]
      by_cases hs : IsStart w
      · have hs' : w &&& recordBit ≠ 0#32 := hs
        by_cases ht : recordType w = rtSequence
        · simp [hs, hs', ht]
        · simp [hs', ht]
      · have hs' : ¬ w &&& recordBit ≠ 0#32 := hs
        simp [hs, hs']

theorem Region.Holds.pageStream_eq (h : g.Holds word k l) :
    pageStream g word pageWords (g.pageAddr k) =
      l ++ if l.length < pageWords then [erasedWord] else [] :=
  pageStream_of_words _ _ _ h.length_le h.ne_erased h.word_eq

theorem Region.Holds.markOf_eq (h : g.Holds word k l) : g.markOf word k = l.findSome? markIn :=
  scanPage_of_words _ _ _ h.length_le h.ne_erased h.word_eq

/-- **The back scan** finds the end of the words in a page. -/
theorem Region.Holds.backScan_eq (h : g.Holds word k l) :
    backScan g word (g.pageAddr k) pageWords = g.pageAddr k + l.length * g.stride := by
  have hscan : ∀ n, l.length ≤ n → n ≤ pageWords →
      backScan g word (g.pageAddr k) n = g.pageAddr k + l.length * g.stride := by
    intro n
    induction n with
    | zero =>
      intro hl _
      rw [backScan, show l.length = 0 by omega, Nat.zero_mul, Nat.add_zero]
    | succ n ih =>
      intro hl hn
      rw [backScan, h.word_eq n (by omega)]
      by_cases hlt : l.length ≤ n
      · rw [List.getD_eq_default _ _ hlt, if_neg (by simp)]
        exact ih hlt (by omega)
      · rw [List.getD_eq_getElem _ _ (by omega), if_pos (h.ne_erased _ (List.getElem_mem _)),
          show l.length = n + 1 by omega]
  exact hscan _ h.length_le le_rfl

end Holds

/-! ## What the raw records depend on -/

section Congr

variable {g : Region} {word word' : ℕ → Word}

theorem pageStream_congr (n : ℕ) : ∀ rp : ℕ, (∀ a, rp ≤ a → word a = word' a) →
    pageStream g word n rp = pageStream g word' n rp := by
  induction n with
  | zero => exact fun _ _ => rfl
  | succ n ih =>
    intro rp h
    rw [pageStream, pageStream, h rp le_rfl, ih (rp + g.stride) fun a ha => h a (by omega)]

theorem pagesStream_congr (h : ∀ a, g.start ≤ a → word a = word' a) (newp n : ℕ) :
    ∀ page, g.start ≤ page → pagesStream g word newp n page = pagesStream g word' newp n page := by
  induction n with
  | zero => exact fun _ _ => rfl
  | succ n ih =>
    intro page hp
    have hwrap : g.start ≤ g.wrap page := by unfold Region.wrap; split <;> omega
    rw [pagesStream, pagesStream, pageStream_congr _ _ fun a ha => h a (by omega),
      ih _ (by omega)]

/-- The raw records are made of the words from the start of the region on. -/
theorem rawRecords_congr (h : ∀ a, g.start ≤ a → word a = word' a) :
    rawRecords g word = rawRecords g word' := by
  have hw := findBounds_within (g := g) word
  rw [rawRecords, rawRecords, stream, stream, ← findBounds_congr h]
  by_cases hnew : (findBounds g word).newp ≠ 0
  · simp only [if_pos hnew, pagesStream_congr h _ _ _ (hw.1 (hw.2 hnew).1)]
  · simp only [if_neg hnew]

end Congr

/-! ## Other addresses for the same words -/

/-- The region with `c` addresses for each one. -/
def Region.scale (g : Region) (c : ℕ) : Region := ⟨g.start * c, g.stop * c, g.stride * c⟩

section Scale

variable {c : ℕ} {g : Region} {word word' : ℕ → Word}

/-- The bounds, at the other addresses. -/
def Bounds.scale (b : Bounds) (c : ℕ) : Bounds := ⟨b.oldp * c, b.oldq, b.newp * c, b.newq⟩

theorem Bounds.note_scale (b : Bounds) (page : ℕ) (mark : Option ℕ) :
    (b.scale c).note (page * c) mark = (b.note page mark).scale c := by
  cases mark with
  | none => rfl
  | some q => by_cases h₁ : q < b.oldq <;> by_cases h₂ : q > b.newq <;>
      simp [Bounds.note, Bounds.scale, h₁, h₂]

theorem scanPage_scale (hword : ∀ a, word' (a * c) = word a) (stride n : ℕ) : ∀ rp,
    scanPage word' (stride * c) n (rp * c) = scanPage word stride n rp := by
  induction n with
  | zero => exact fun _ => rfl
  | succ n ih => simp only [scanPage, hword, ← Nat.add_mul, ih, implies_true]

theorem Region.pageStep_scale : (g.scale c).pageStep = g.pageStep * c :=
  (Nat.mul_assoc _ _ _).symm

theorem Region.rounds_scale (hc : 0 < c) : (g.scale c).rounds = g.rounds := by
  rw [Region.rounds, Region.pageStep_scale]
  simp only [Region.scale]
  rw [← Nat.sub_mul, Nat.mul_div_mul_right _ _ hc]

theorem findBounds_scale (hc : 0 < c) (hword : ∀ a, word' (a * c) = word a) :
    findBounds (g.scale c) word' = (findBounds g word).scale c := by
  have hpages : ∀ n page (b : Bounds), scanPages (g.scale c) word' n (page * c) (b.scale c) =
      (scanPages g word n page b).scale c := by
    intro n
    induction n with
    | zero => exact fun _ _ => rfl
    | succ n ih =>
      intro page b
      have hlt : page * c < (g.scale c).stop ↔ page < g.stop := Nat.mul_lt_mul_right hc
      rw [scanPages, scanPages, Region.pageStep_scale, ← Nat.add_mul]
      simp only [hlt, show (g.scale c).stride = g.stride * c from rfl, scanPage_scale hword,
        Bounds.note_scale, ih]
      split <;> rfl
  have h := hpages g.rounds g.start Bounds.init
  rw [show Bounds.init.scale c = Bounds.init by simp [Bounds.scale, Bounds.init]] at h
  rw [findBounds, Region.rounds_scale hc]
  exact h

theorem pageStream_scale (hword : ∀ a, word' (a * c) = word a) (n : ℕ) : ∀ rp,
    pageStream (g.scale c) word' n (rp * c) = pageStream g word n rp := by
  induction n with
  | zero => exact fun _ => rfl
  | succ n ih =>
    intro rp
    rw [pageStream, pageStream, hword, show (g.scale c).stride = g.stride * c from rfl,
      ← Nat.add_mul, ih]

theorem pagesStream_scale (hc : 0 < c) (hword : ∀ a, word' (a * c) = word a) (newp n : ℕ) :
    ∀ page, pagesStream (g.scale c) word' (newp * c) n (page * c) =
      pagesStream g word newp n page := by
  have hwrap : ∀ page, (g.scale c).wrap (page * c) = g.wrap page * c := by
    intro page
    have hge : page * c ≥ (g.scale c).stop ↔ page ≥ g.stop := Nat.mul_le_mul_right_iff hc
    rw [Region.wrap, Region.wrap]
    simp only [hge]
    split <;> rfl
  induction n with
  | zero => exact fun _ => rfl
  | succ n ih =>
    intro page
    have heq : g.wrap page * c = newp * c ↔ g.wrap page = newp :=
      Nat.mul_left_inj (Nat.pos_iff_ne_zero.1 hc)
    simp only [pagesStream, hwrap, pageStream_scale hword, heq, Region.pageStep_scale,
      ← Nat.add_mul, ih]

/-- **The raw records do not depend on how the words are addressed.** -/
theorem rawRecords_scale (hc : 0 < c) (hword : ∀ a, word' (a * c) = word a) :
    rawRecords (g.scale c) word' = rawRecords g word := by
  have hne : (findBounds g word).newp * c ≠ 0 ↔ (findBounds g word).newp ≠ 0 := by
    rw [Nat.mul_ne_zero_iff]
    exact and_iff_left (Nat.pos_iff_ne_zero.1 hc)
  rw [rawRecords, rawRecords, stream, stream, findBounds_scale hc hword, Region.rounds_scale hc]
  simp only [Bounds.scale, hne, pagesStream_scale hc hword]

end Scale

end AntTracer
