import AntTracer.App.Resume

/-!
# Wear levelling

The pen goes round the pages of the store, and a page is erased when the pen
comes back to it. So the numbers of erases of any two pages differ by at most
one (`wear_levelled`), as long as the power is lost only between two records:
a page with nothing but a piece of a record in it is erased out of turn. A
failed erase leaves the page as it was.
-/

namespace AntTracer

namespace App

/-! ## Counting -/

/-- Nothing of an operation has been done. -/
def Untouched : Option SdOp → Prop
  | some (.erase _ done) => done = false
  | some (.write _ _ _ programmed) => programmed = []
  | none => True

instance : DecidablePred Untouched := fun op => by
  rcases op with _ | ⟨_, _⟩ | ⟨_, _, _, _⟩ <;> unfold Untouched <;> infer_instance

/-- The page a step erases: the soft device does it, or in the end
`StoreFlashed`. -/
def erased (s : Log) : LogEvent → Option ℕ
  | .device .work =>
    match s.sd with
    | some (.erase page false) => some page
    | _ => none
  | .device .error =>
    if s.sd ≠ none ∧ s.flashComplete = false ∧ s.flashTries = 0 ∧ s.flashEraseOp = true then
      some (s.flashAddress / pageWords)
    else none
  | _ => none

/-- The number of erases of a page in a run. -/
def erases (s : Log) : List LogEvent → ℕ → ℕ
  | [], _ => 0
  | e :: es, page => (if erased s e = some page then 1 else 0) + erases (logStep s e) es page

/-- The power is lost only between two records, and a failed operation leaves
the flash as it was. -/
def CleanFailing (s : Log) (e : LogEvent) : Prop :=
  Clean s e ∧ (e = .device .error → Untouched s.sd)

instance (s : Log) : ∀ e : LogEvent, Decidable (CleanFailing s e)
  | .append _ | .go | .device .work | .device .success => .isTrue ⟨trivial, nofun⟩
  | .device .error => decidable_of_iff (Untouched s.sd)
    ⟨fun h => ⟨trivial, fun _ => h⟩, fun h => h.2 rfl⟩
  | .power => decidable_of_iff (s.wrState = .idle) ⟨fun h => ⟨h, nofun⟩, fun h => h.1⟩

/-! ## Round robin -/

/-- How often page `k` has come round when `n` pages have been passed. -/
def turns (n k : ℕ) : ℕ := (n + (storePages - 1) - k) / storePages

theorem turns_le (n : ℕ) {k k' : ℕ} (hk : k < storePages) (hk' : k' < storePages) :
    turns n k ≤ turns n k' + 1 := by
  simp only [turns, storePages] at *
  omega

/-- **One more page.** -/
theorem turns_succ (n : ℕ) {k : ℕ} (hk : k < storePages) :
    turns (n + 1) k = turns n k + if n % storePages = k then 1 else 0 := by
  simp only [turns, storePages] at *
  split <;> omega

/-- The number of pages the pen has come back to: the next page is counted
once it is erased. -/
def passed (flash : ℕ → Word) (n : ℕ) : ℕ :=
  if flash (pageAt (n % storePages)) = erasedWord then n - (storePages - 1) else n - storePages

/-- **The erases are evenly spread.** Of the pages of the store, all before the
pen are in use in the first round, and all but the next one later on. -/
structure Even (p : Pen) (c : ℕ → ℕ) : Prop where
  used : ∀ k < storePages, k ≠ p.sequence.toNat % storePages →
    (p.flash (pageAt k) = erasedWord ↔ p.sequence.toNat ≤ k)
  next : p.sequence.toNat < storePages → p.flash (pageAt p.sequence.toNat) = erasedWord
  count : ∀ k < storePages, c (64 + k) = turns (passed p.flash p.sequence.toNat) k

namespace Even

variable {p q : Pen} {c : ℕ → ℕ}

theorem congr (h : Even p c) (hseq : q.sequence = p.sequence)
    (hflash : ∀ k < storePages, q.flash (pageAt k) = erasedWord ↔ p.flash (pageAt k) = erasedWord) :
    Even q c := by
  have hmod := mod_lt p.sequence.toNat
  refine ⟨fun k hk hne => ?_, fun hlt => ?_, fun k hk => ?_⟩
  · rw [hseq] at hne ⊢
    rw [hflash k hk]
    exact h.used k hk hne
  · rw [hseq] at hlt ⊢
    rw [hflash _ hlt]
    exact h.next hlt
  · rw [hseq, h.count k hk, passed, passed]
    simp only [hflash _ hmod]

/-- **The erase of the next page.** -/
theorem wipe (h : Even p c) (hne : p.flash (pageAt (p.sequence.toNat % storePages)) ≠ erasedWord) :
    Even ⟨App.wipe p.flash (64 + p.sequence.toNat % storePages), p.ptr, p.sequence⟩
      (fun page => (if 64 + p.sequence.toNat % storePages = page then 1 else 0) + c page) := by
  have hmod := mod_lt p.sequence.toNat
  have hge : storePages ≤ p.sequence.toNat := by
    by_contra hlt
    refine hne ?_
    rw [Nat.mod_eq_of_lt (by omega)]
    exact h.next (by omega)
  have hblank : App.wipe p.flash (64 + p.sequence.toNat % storePages)
      (pageAt (p.sequence.toNat % storePages)) = erasedWord := if_pos (pageAt_div _)
  have hother : ∀ k, k ≠ p.sequence.toNat % storePages →
      App.wipe p.flash (64 + p.sequence.toNat % storePages) (pageAt k) = p.flash (pageAt k) :=
    fun k hk => if_neg (by rw [pageAt_div]; omega)
  refine ⟨fun k hk hkne => ?_, fun hlt => ?_, fun k hk => ?_⟩
  · simp only [hother k hkne]
    exact h.used k hk hkne
  · exact absurd hlt (not_lt.2 hge)
  · -- one more page has been passed
    have hcount := h.count k hk
    have hsucc := turns_succ (p.sequence.toNat - storePages) hk
    rw [passed, if_neg hne] at hcount
    rw [passed, if_pos hblank]
    simp only [hcount]
    rw [show p.sequence.toNat - (storePages - 1) = p.sequence.toNat - storePages + 1 by
      simp only [storePages] at *; omega, hsucc]
    simp only [storePages] at *
    split <;> split <;> omega

/-- **The pen goes to the next page**, which is erased. -/
theorem turn (h : Even p c) (hblank : p.flash (pageAt (p.sequence.toNat % storePages)) = erasedWord)
    (hseq : q.sequence.toNat = p.sequence.toNat + 1)
    (hnew : q.flash (pageAt (p.sequence.toNat % storePages)) ≠ erasedWord)
    (hother : ∀ k < storePages, k ≠ p.sequence.toNat % storePages →
      q.flash (pageAt k) = p.flash (pageAt k)) : Even q c := by
  have hmod := mod_lt p.sequence.toNat
  have hmod' := mod_lt (p.sequence.toNat + 1)
  have hne : (p.sequence.toNat + 1) % storePages ≠ p.sequence.toNat % storePages :=
    (mod_ne (by omega) (by simp only [storePages]; omega)).symm
  refine ⟨fun k hk hkne => ?_, fun hlt => ?_, fun k hk => ?_⟩
  · rw [hseq] at hkne ⊢
    by_cases hkn : k = p.sequence.toNat % storePages
    · subst hkn
      simp only [hnew, false_iff]
      have := Nat.mod_le p.sequence.toNat storePages
      omega
    · rw [hother k hk hkn, h.used k hk hkn]
      have hne' : k ≠ p.sequence.toNat := by
        rintro rfl
        exact hkn (Nat.mod_eq_of_lt hk).symm
      omega
  · rw [hseq] at hlt ⊢
    have hkn : p.sequence.toNat + 1 ≠ p.sequence.toNat % storePages := by
      rw [Nat.mod_eq_of_lt (by omega)]
      omega
    rw [hother _ hlt hkn, h.used _ hlt hkn]
    omega
  · have hcount := h.count k hk
    have hused := h.used _ hmod' hne
    rw [passed, if_pos hblank] at hcount
    rw [hcount, passed, hseq, hother _ hmod' hne]
    congr 1
    by_cases hlt : p.sequence.toNat + 1 < storePages
    · rw [Nat.mod_eq_of_lt hlt] at hused ⊢
      rw [if_pos (hused.2 (by omega))]
      simp only [storePages] at *
      omega
    · rw [if_neg fun h0 => by
        have := hused.1 h0
        simp only [storePages] at *
        omega]
      simp only [storePages] at *
      omega

end Even

/-! ## The log -/

section Log

variable {s : Log} {t : LogTape} {spare : List Word} {c : ℕ → ℕ}

/-- **A record written** keeps the erases even, when the page it turns to is
erased. -/
theorem Even.put {p : Pen} (h : Even p c) (hd : Disk t spare p.flash) (hptr : p.ptr = tailOf t)
    (hseq : p.sequence = BitVec.ofNat 32 t.hi) (hhi : t.hi < 2 ^ 26 - 1) {ws : List Word}
    (hrec : IsRecord ws)
    (hblank : roomOf t < ws.length → p.flash (pageAt (t.hi % storePages)) = erasedWord) :
    Even (p.put ws) c := by
  obtain ⟨hroom, hnext, hstart⟩ := hd.pen_eq hptr
  have hnat : p.sequence.toNat = t.hi := by
    rw [hseq, BitVec.toNat_ofNat, Nat.mod_eq_of_lt (by omega)]
  have hpos := hrec.length_pos
  rw [Pen.put, hroom]
  by_cases hmore : ws.length > roomOf t
  · have hc := hd.cleared (hblank hmore)
    have hwipe : App.wipe p.flash (p.next / pageWords) = p.flash := by
      rw [hnext, pageAt_div]
      exact hd.wipe_next hc
    have hadd := hd.newStart_add
    have hfirst := firstPart_le t
    have hshort := hrec.short
    rw [if_pos hmore, Pen.turn, hstart]
    refine h.turn (by rw [hnat]; exact hblank hmore) ?_ ?_ fun k hk hne => ?_
    · change (p.sequence + 1#32).toNat = _
      rw [BitVec.toNat_add, hnat]
      exact Nat.mod_eq_of_lt (by simp; omega)
    · -- the page begins with a word of the record
      have hword : burn p.flash (newStart t) (ws ++ [sequenceWord (p.sequence + 1#32)])
          (newStart t + firstPart t) = ws[firstPart t] := by
        rw [burn_at (by simp; omega), List.getElem_append_left]
      dsimp only
      rw [hwipe, hnat, ← hadd, hword]
      exact hrec.ne_erased _ (List.getElem_mem _)
    · dsimp only
      rw [hwipe, burn_of_not]
      rw [hnat] at hne
      rw [List.length_append, List.length_singleton]
      by_cases hr : 0 < firstPart t
      · obtain ⟨h₁, -, h₂⟩ := hd.firstPart_pos hr
        obtain ⟨-, h₃, h₄, h₅⟩ := hd.tail_eq (by omega)
        simp only [pageAt, storeStart, storePages, pageWords, bufferSize] at *
        omega
      · simp only [pageAt, storeStart, storePages, pageWords, bufferSize] at *
        omega
  · rw [if_neg hmore]
    refine h.congr rfl fun k hk => ?_
    have h₀ : t.hi ≠ 0 := by
      intro h₀
      rw [roomOf, if_pos h₀] at hmore
      omega
    obtain ⟨-, h₁, h₂, h₃⟩ := hd.tail_eq h₀
    dsimp only
    rw [hptr, burn_of_not]
    simp only [pageAt, storeStart, storePages, pageWords] at *
    omega

/-- The pen an erase leaves alone, or the one after the write. -/
def aim (s : Log) : Pen := if s.wrState = .erase1 then s.pen else goal s

/-- The erases so far are evenly spread, and an erase that is outstanding is
one of a page in use. -/
structure Levelled (s : Log) (c : ℕ → ℕ) : Prop where
  steady : Steady s
  even : Even (aim s) c
  needed : ∀ page, s.sd = some (.erase page false) → s.flash (page * pageWords) ≠ erasedWord

/-- What the soft device does to an outstanding erase. -/
theorem ErasingOp.erased_step {page : ℕ} {done : Bool} (h : ErasingOp s page done) {e : SdEvent}
    (hfail : e = .error → Untouched s.sd) :
    (erased s (.device e) = none ∧ (sdEvent s e).flash = s.flash ∧
        ∀ p, (sdEvent s e).sd = some (.erase p false) → s.sd = some (.erase p false)) ∨
      (erased s (.device e) = some page ∧ done = false ∧ (sdEvent s e).flash = wipe s.flash page ∧
        ∀ p, (sdEvent s e).sd ≠ some (.erase p false)) := by
  cases e with
  | work =>
    cases done with
    | false =>
      rw [h.sdEvent_work]
      exact Or.inr ⟨by simp [erased, h.sd], rfl, rfl, fun p hp => by simp at hp⟩
    | true =>
      rw [h.sdEvent_work_done]
      exact Or.inl ⟨by simp [erased, h.sd], rfl, fun _ hp => hp⟩
  | success =>
    cases done with
    | false =>
      rw [h.sdEvent_success]
      exact Or.inl ⟨rfl, rfl, fun _ hp => hp⟩
    | true =>
      rw [h.sdEvent_success_done]
      exact Or.inl ⟨rfl, rfl, nofun⟩
  | error =>
    have hdone := hfail rfl
    rw [h.sd] at hdone
    obtain rfl : done = false := hdone
    by_cases htries : s.flashTries = 0
    · rw [h.sdEvent_error_last (by omega)]
      refine Or.inr ⟨?_, rfl, rfl, nofun⟩
      rw [erased, if_pos ⟨by rw [h.sd]; nofun, h.complete, htries, h.eraseOp⟩, h.address]
    · -- the erase that is tried again is the one that was outstanding
      rw [h.sdEvent_error (Nat.pos_of_ne_zero htries)]
      refine Or.inl ⟨?_, rfl, fun p hp => h.sd.trans hp⟩
      rw [erased, if_neg fun hc => htries hc.2.2.1]

/-- An erase is outstanding only while `wrGo` waits for one. -/
theorem Steady.sd_ne (h : Steady s) (hne : s.wrState ≠ .erase1) (page : ℕ) :
    s.sd ≠ some (.erase page false) := by
  intro hsd
  rcases h with ⟨hnone, -⟩ | hwork
  · rw [hnone] at hsd
    cases hsd
  · cases hwork with
    | erasing _ _ state => exact hne state
    | writing _ op =>
      rcases op with ⟨j, -, op⟩ | ⟨-, hnone, -⟩
      · rw [op.sd] at hsd
        cases hsd
      · rw [hnone] at hsd
        cases hsd

theorem wrWrite_state {ptr cnt : ℕ} (h : s.wrState = .write1) :
    (wrWrite ptr cnt s).1.wrState ≠ .erase1 := by
  rw [wrWrite]
  split
  · exact WrState.noConfusion
  · by_cases hneed : s.needSeq = true
    · simp only [hneed, if_true]
      change s.wrState ≠ _
      rw [h]
      exact WrState.noConfusion
    · simp only [hneed]
      change s.wrState ≠ _
      rw [h]
      exact WrState.noConfusion

/-- **When `wrGo` erases a page**: it needs it, and the page is in use. -/
theorem wrErase_cases (ptr pe remain cnt : ℕ) (s : Log) :
    (cnt > remain ∧ s.flash (if pe ≥ storeEnd then storeStart else pe) ≠ erasedWord ∧
        wrErase ptr pe remain cnt s =
          (flashErase (if pe ≥ storeEnd then storeStart else pe) s, true)) ∨
      ((cnt > remain → s.flash (if pe ≥ storeEnd then storeStart else pe) = erasedWord) ∧
        (wrErase ptr pe remain cnt s).1.wrState ≠ .erase1) := by
  unfold wrErase
  dsimp only
  generalize (if pe ≥ storeEnd then storeStart else pe) = next
  by_cases hmore : cnt > remain
  · rw [if_pos hmore]
    by_cases hblank : s.flash next = erasedWord
    · refine Or.inr ⟨fun _ => hblank, ?_⟩
      rw [if_neg (not_not.2 hblank)]
      split
      · exact wrWrite_state rfl
      · exact wrWrite_state rfl
    · exact Or.inl ⟨hmore, hblank, if_pos hblank⟩
  · rw [if_neg hmore]
    exact Or.inr ⟨fun h => absurd h hmore, wrWrite_state rfl⟩

end Log

section Step

variable {s : Log} {c : ℕ → ℕ}

theorem aim_erase1 (h : s.wrState = .erase1) : aim s = s.pen := if_pos h

theorem aim_goal (h : s.wrState ≠ .erase1) : aim s = goal s := if_neg h

/-- Nothing is erased. -/
theorem levelled_of_none {e : LogEvent} (h : erased s e = none) (hl : Levelled (logStep s e) c) :
    Levelled (logStep s e) fun page => (if erased s e = some page then 1 else 0) + c page := by
  simpa [h] using hl

/-- **A new record**: the next page is erased if it is in use, else the record
is written. -/
theorem Levelled.append (h : Levelled s c) (hadv : s.advances < 2 ^ 26 - 1) (r : Rec) :
    Levelled (logStep s (.append r)) c := by
  have hsteady := h.steady.step hadv (.append r)
  rw [logStep] at hsteady ⊢
  split
  · rename_i hstate
    rw [if_pos hstate] at hsteady
    obtain ⟨hsd, t, spare, hidle⟩ := h.steady.resolve_right fun hwork => hwork.state_ne hstate
    have heven := h.even
    have hrec := r.isRecord s.buf
    have hnext := (hidle.disk.pen_eq (p := s.pen) hidle.tail).2.1
    rw [aim_goal (by rw [hstate]; exact WrState.noConfusion), goal_idle hstate] at heven
    have hgoal := hidle.goal_append hrec
    rw [hidle.append_eq hrec] at hsteady hgoal ⊢
    rcases wrErase_cases s.currentWrite (pageEnd s.currentWrite) (roomOf t)
      (recordWords r.type r.fields s.buf).length (begun r.type r.fields s) with
      ⟨-, hne, heq⟩ | ⟨hblank, hne⟩
    · change s.flash s.pen.next ≠ erasedWord at hne
      change _ = (flashErase s.pen.next _, true) at heq
      rw [heq] at hsteady ⊢
      refine ⟨hsteady, heven, fun page hpage => ?_⟩
      change (s.sd <|> some (SdOp.erase (s.pen.next / pageWords) false)) = _ at hpage
      rw [hsd, hnext, pageAt_div] at hpage
      obtain rfl : 64 + t.hi % storePages = page := by simpa using hpage
      rw [hnext] at hne
      rwa [show (64 + t.hi % storePages) * pageWords = pageAt (t.hi % storePages) by
        simp only [pageAt, storeStart]; ring]
    · change _ → s.flash s.pen.next = erasedWord at hblank
      rw [hnext] at hblank
      refine ⟨hsteady, ?_, fun page hpage => ?_⟩
      · rw [aim_goal hne, hgoal, goal_idle hstate]
        exact heven.put hidle.disk hidle.tail hidle.sequence
          (by have := hidle.advances; omega) hrec hblank
      · exact absurd hpage (hsteady.sd_ne hne page)
  · exact h

/-- **An event of the soft device**: the outstanding erase is of the page that
comes next. -/
theorem Levelled.device (h : Levelled s c) (hadv : s.advances < 2 ^ 26 - 1) {e : SdEvent}
    (hfail : e = .error → Untouched s.sd) :
    Levelled (logStep s (.device e))
      fun page => (if erased s (.device e) = some page then 1 else 0) + c page := by
  have hsteady := h.steady.step hadv (.device e)
  rcases h.steady with ⟨hsd, -⟩ | hwork
  · have hnone : erased s (.device e) = none := by cases e <;> simp [erased, hsd]
    refine levelled_of_none hnone ?_
    rw [logStep, sdEvent_of_none hsd]
    exact h
  obtain ⟨flash', sd', fc, tries, rs', written', refused', hbeside⟩ := sdEvent_beside s e
  have hstate : (logStep s (.device e)).wrState = s.wrState := by rw [logStep, hbeside]
  by_cases herase : s.wrState = .erase1
  · have heven := h.even
    rw [aim_erase1 herase] at heven
    cases hwork with
    | writing w => rw [w.state] at herase; cases herase
    | @erasing t spare rs r b more state needSeq tail op =>
      have hnat : s.pen.sequence.toNat = t.hi := by
        change s.sequence.toNat = _
        rw [b.sequence, BitVec.toNat_ofNat]
        exact Nat.mod_eq_of_lt (by have := b.advances; omega)
      have haim : ∀ flash, (logStep s (.device e)).flash = flash →
          aim (logStep s (.device e)) = ⟨flash, s.currentWrite, s.sequence⟩ := by
        intro flash hf
        rw [aim_erase1 (hstate.trans herase), Log.pen, hf, logStep, hbeside]
      rcases op with ⟨done, op, -⟩ | ⟨-, hsd, -⟩
      · rcases op.erased_step hfail with ⟨hnone, hflash, hsd⟩ | ⟨hsome, rfl, hflash, hsd⟩
        · refine levelled_of_none hnone ⟨hsteady, ?_, fun page hpage => ?_⟩
          · rw [haim _ hflash]
            exact heven
          · rw [logStep, hflash]
            exact h.needed page (hsd page hpage)
        · refine ⟨hsteady, ?_, fun page hpage => absurd hpage (hsd page)⟩
          have hneeded := h.needed _ op.sd
          rw [haim _ hflash, hsome]
          simp only [Option.some.injEq]
          have := heven.wipe (by
            rw [hnat]
            rwa [show (64 + t.hi % storePages) * pageWords = pageAt (t.hi % storePages) by
              simp only [pageAt, storeStart]; ring] at hneeded)
          rwa [hnat] at this
      · have hnone : erased s (.device e) = none := by cases e <;> simp [erased, hsd]
        refine levelled_of_none hnone ?_
        rw [logStep, sdEvent_of_none hsd]
        exact h
  · -- a write erases nothing
    have hnone : erased s (.device e) = none := by
      cases hwork with
      | erasing _ _ state => exact absurd state herase
      | writing w op =>
        rcases op with ⟨j, -, op⟩ | ⟨-, hsd, -⟩
        · cases e <;> simp [erased, op.sd, op.eraseOp]
        · cases e <;> simp [erased, hsd]
    refine levelled_of_none hnone ⟨hsteady, ?_, fun page hpage => ?_⟩
    · have heven := h.even
      rw [aim_goal herase] at heven
      rw [aim_goal (by rw [hstate]; exact herase), logStep, hwork.goal_step e]
      exact heven
    · exact absurd hpage (hsteady.sd_ne (by rw [hstate]; exact herase) page)

/-- After an erase `wrGo` writes, and after a write it is through. -/
theorem Working.go_state (h : Working s) (hfc : s.flashComplete = true) :
    (wrGo s).1.wrState ≠ .erase1 := by
  cases h with
  | @erasing t spare rs r b more state needSeq tail op =>
    rcases op with ⟨done, op, -⟩ | ⟨hc, -, -⟩
    · have hfc' := op.complete
      rw [hfc] at hfc'
      cases hfc'
    · have hnext := (b.disk.pen_eq (p := s.pen) tail).2.1
      rw [b.go_eq state tail]
      rcases wrErase_cases s.currentWrite (pageEnd s.currentWrite) (roomOf t) r.words.length
        { s with wrState := .erase2 } with ⟨-, hne, -⟩ | ⟨-, hne⟩
      · -- the page has been erased
        change s.flash s.pen.next ≠ erasedWord at hne
        rw [hnext] at hne
        obtain ⟨hlt, rfl⟩ := hc
        exact absurd (holds_nil_iff.1 (b.disk.next hlt) 0 (by decide)) hne
      · exact hne
  | @writing t spare flash rs r W n k w op =>
    rw [wrGo, w.state]
    dsimp only
    rw [wrWrite]
    split
    · exact WrState.noConfusion
    · simp only [w.needSeq]
      exact WrState.noConfusion

theorem Levelled.go (h : Levelled s c) (hadv : s.advances < 2 ^ 26 - 1) :
    Levelled (logStep s .go) c := by
  have hsteady := h.steady.step hadv .go
  rw [logStep] at hsteady ⊢
  split
  · rename_i hgo
    rw [if_pos hgo] at hsteady
    have hwork : Working s := h.steady.resolve_left fun hidle => by
      obtain ⟨-, t, spare, hidle⟩ := hidle
      exact hgo.1 hidle.state
    have hne := hwork.go_state hgo.2
    refine ⟨hsteady, ?_, fun page hpage => absurd hpage (hsteady.sd_ne hne page)⟩
    have heven := h.even
    rw [aim_goal hne, hwork.goal_go hgo.2]
    by_cases herase : s.wrState = .erase1
    · rw [aim_erase1 herase] at heven
      cases hwork with
      | writing w => rw [w.state] at herase; cases herase
      | @erasing t spare rs r b more state needSeq tail op =>
        rcases op with ⟨done, op, -⟩ | ⟨hc, -, -⟩
        · have hfc' := op.complete
          rw [hgo.2] at hfc'
          cases hfc'
        · rw [goal_erase1 state, b.buf]
          obtain ⟨hlt, rfl⟩ := hc
          exact heven.put b.disk tail b.sequence (by have := b.advances; omega) b.record
            fun _ => holds_nil_iff.1 (b.disk.next hlt) 0 (by decide)
    · rwa [aim_goal herase] at heven
  · exact h

theorem Levelled.power (h : Levelled s c) (hadv : s.advances < 2 ^ 26 - 1)
    (hidle : s.wrState = .idle) : Levelled (logStep s .power) c := by
  have hsteady := h.steady.step hadv .power
  obtain ⟨-, t, spare, hi⟩ := h.steady.resolve_right fun hwork => hwork.state_ne hidle
  obtain ⟨hpen, hstate⟩ := hi.pen_boot
  have hne : (logStep s .power).wrState ≠ .erase1 := by
    rw [logStep, hstate]
    exact WrState.noConfusion
  refine ⟨hsteady, ?_, fun page hpage => absurd hpage (hsteady.sd_ne hne page)⟩
  have heven := h.even
  rw [aim_goal (by rw [hidle]; exact WrState.noConfusion), goal_idle hidle] at heven
  rw [aim_goal hne, logStep, goal_idle hstate, hpen]
  exact heven

/-- **Every step keeps the erases even.** -/
theorem Levelled.step (h : Levelled s c) (hadv : s.advances < 2 ^ 26 - 1) {e : LogEvent}
    (hclean : CleanFailing s e) :
    Levelled (logStep s e) fun page => (if erased s e = some page then 1 else 0) + c page := by
  cases e with
  | append r => exact levelled_of_none rfl (h.append hadv r)
  | device e => exact h.device hadv fun he => hclean.2 (congrArg _ he)
  | go => exact levelled_of_none rfl (h.go hadv)
  | power => exact levelled_of_none rfl (h.power hadv hclean.1)

end Step

/-! ## Runs -/

theorem levelled_run (es : List LogEvent) : ∀ (s : Log) (c : ℕ → ℕ), Levelled s c →
    Runs.Each logStep CleanFailing s es → (Runs.run logStep s es).advances < 2 ^ 26 - 1 →
    Levelled (Runs.run logStep s es) fun page => erases s es page + c page := by
  induction es with
  | nil =>
    intro s c h _ _
    simpa [erases] using h
  | cons e es ih =>
    intro s c h hclean hadv
    have hle := run_advances_ge (e :: es) s
    have := ih _ _ (h.step (by omega) hclean.1) hclean.2 hadv
    have hsum : (fun page => erases s (e :: es) page + c page) = fun page =>
        erases (logStep s e) es page + ((if erased s e = some page then 1 else 0) + c page) := by
      funext page
      rw [erases]
      omega
    rw [hsum]
    exact this

theorem Even.le {p : Pen} {c : ℕ → ℕ} (h : Even p c) {k k' : ℕ} (hk : k < storePages)
    (hk' : k' < storePages) : c (64 + k) ≤ c (64 + k') + 1 := by
  rw [h.count k hk, h.count k' hk']
  exact turns_le _ hk hk'

/-- **Wear levelling.** From an erased store, after any records and any clean
reboots between them, the numbers of erases of any two pages of the store
differ by at most one, at every moment. -/
theorem wear_levelled {flash : ℕ → Word}
    (hflash : ∀ a, storeStart ≤ a → a < storeEnd → flash a = erasedWord) (es : List LogEvent)
    (hclean : Runs.Each logStep CleanFailing (boot (Log.off flash)) es)
    (hadv : (Runs.run logStep (boot (Log.off flash)) es).advances < 2 ^ 26 - 1) {page page' : ℕ}
    (hpage : storeStart ≤ page * pageWords ∧ page * pageWords < storeEnd)
    (hpage' : storeStart ≤ page' * pageWords ∧ page' * pageWords < storeEnd) :
    erases (boot (Log.off flash)) es page ≤ erases (boot (Log.off flash)) es page' + 1 := by
  have hstart : Levelled (boot (Log.off flash)) fun _ => 0 := by
    obtain ⟨hidle, hsd, -⟩ := Disk.boot (s := Log.off flash) (disk_empty hflash) linked_empty
      (Nat.zero_le _)
    have hblank : ∀ k < storePages, flash (pageAt k) = erasedWord := fun k hk =>
      hflash _ (by simp only [pageAt]; omega)
        (by simp only [pageAt, storeStart, storeEnd, storePages, pageWords] at *; omega)
    refine ⟨Or.inl ⟨hsd, _, _, hidle⟩, ?_, fun page hsd' => ?_⟩
    · rw [aim_goal (by rw [hidle.state]; nofun), goal_idle hidle.state]
      have hseq : (boot (Log.off flash)).pen.sequence.toNat = 0 := by
        change (boot (Log.off flash)).sequence.toNat = 0
        rw [hidle.sequence]
        rfl
      have hf : (boot (Log.off flash)).pen.flash = flash := boot_flash _
      refine ⟨fun k hk _ => ?_, fun _ => ?_, fun k hk => ?_⟩
      · rw [hf, hblank k hk, hseq]
        exact ⟨fun _ => Nat.zero_le k, fun _ => rfl⟩
      · rw [hf, hseq]
        exact hblank 0 (by decide)
      · rw [hf, hseq, passed, Nat.zero_mod, if_pos (hblank 0 (by decide)), turns, Nat.zero_sub]
        simp only [storePages] at *
        omega
    · rw [hsd] at hsd'
      cases hsd'
  have hrun := (levelled_run es _ _ hstart hclean hadv).even
  have hle := @Even.le _ _ hrun (page - 64) (page' - 64)
    (by simp only [storeStart, storeEnd, storePages, pageWords] at *; omega)
    (by simp only [storeStart, storeEnd, storePages, pageWords] at *; omega)
  rw [show 64 + (page - 64) = page by simp only [storeStart, pageWords] at *; omega,
    show 64 + (page' - 64) = page' by simp only [storeStart, pageWords] at *; omega] at hle
  exact hle

set_option maxRecDepth 10000 in
/-- Two records, with a reboot between them and a failed write. -/
theorem wear_levelled_execute :
    erases (boot (Log.off fun _ => erasedWord))
        (appendAll (.execute ⟨1#32, 2#32⟩) ++
          [.power, .append (.execute ⟨3#32, 4#32⟩), .device .error])
        64 ≤
      erases (boot (Log.off fun _ => erasedWord))
        (appendAll (.execute ⟨1#32, 2#32⟩) ++
          [.power, .append (.execute ⟨3#32, 4#32⟩), .device .error])
        125 + 1 :=
  wear_levelled (fun _ _ _ => rfl) _ (by decide) (by decide) (by decide) (by decide)

end App

end AntTracer
