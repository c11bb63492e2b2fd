import AntTracer.App.Disk

/-!
# Operations of the soft device

While an operation is outstanding the soft device works on it, reports that it
is through, or gives up; then `StoreFlashed` tries again, and in the end does
the operation itself. Whichever comes next, an erase is still outstanding or
done (`ErasingOp.step`), and a write goes on over what it programmed before or
is done (`WritingOp.step`).
-/

namespace AntTracer

namespace App

/-- What the soft device can do. -/
inductive SdEvent
  /-- an erase, or the next word of a write -/
  | work
  /-- the report of success -/
  | success
  /-- the report of failure -/
  | error
  deriving DecidableEq

/-- An event of the soft device. -/
def sdEvent (s : Log) : SdEvent → Log
  | .work => sdStep s
  | .success => sdSuccess s
  | .error => sdError s

/-- Without an operation nothing happens. -/
theorem sdEvent_of_none {s : Log} (h : s.sd = none) (e : SdEvent) : sdEvent s e = s := by
  cases e with
  | work => rw [sdEvent, sdStep, h]
  | success => rw [sdEvent, sdSuccess, h]
  | error => rw [sdEvent, sdError, h]

/-! ## What an event leaves alone -/

/-- Only the flash, the state of the operation and the history differ. -/
def Beside (s s' : Log) : Prop :=
  ∃ flash sd fc tries rs written refused, s' = { s with
    flash := flash, sd := sd, flashComplete := fc, flashTries := tries, records := rs,
      written := written, refused := refused }

theorem Beside.refl (s : Log) : Beside s s := ⟨_, _, _, _, _, _, _, rfl⟩

theorem Beside.trans {s s' s'' : Log} (h₁ : Beside s s') (h₂ : Beside s' s'') : Beside s s'' := by
  obtain ⟨_, _, _, _, _, _, _, rfl⟩ := h₁
  obtain ⟨flash, sd, fc, tries, rs, written, refused, rfl⟩ := h₂
  exact ⟨flash, sd, fc, tries, rs, written, refused, rfl⟩

/-- Programming words changes the flash alone. -/
theorem program_flash (src : Source) (a : ℕ) (s : Log) (is : List ℕ) : ∀ t : Log, ∃ flash,
    is.foldl (fun t i => programWord (a + i) (s.ram src i) t) t = { t with flash := flash } := by
  induction is with
  | nil => exact fun t => ⟨t.flash, rfl⟩
  | cons i is ih =>
    intro t
    obtain ⟨flash, h⟩ := ih (programWord (a + i) (s.ram src i) t)
    exact ⟨flash, h⟩

theorem flashWriteRaw_beside (dst cnt : ℕ) (src : Source) (s : Log) :
    Beside s (flashWriteRaw dst src cnt s) := by
  obtain ⟨flash, h⟩ := program_flash src dst s (List.range cnt) s
  rw [flashWriteRaw, h]
  exact ⟨_, _, _, _, _, _, _, rfl⟩

theorem storeFlashed_beside (ok : Bool) (s : Log) : Beside s (storeFlashed ok s) := by
  have hif : ∀ (c : Prop) [Decidable c] (s s' : Log), Beside s s' →
    Beside s (if c then s' else s) :=
    fun c _ s s' h => by
      split
      · exact h
      · exact Beside.refl s
  have hcomplete : ∀ s : Log, Beside s { s with flashComplete := true } :=
    fun s => ⟨s.flash, s.sd, true, s.flashTries, s.records, s.written, s.refused, rfl⟩
  unfold storeFlashed
  split
  · exact hcomplete s
  split
  · exact Beside.refl s
  split
  · refine Beside.trans ⟨s.flash, s.sd, s.flashComplete, s.flashTries - 1, s.records,
      s.written, s.refused, rfl⟩
      ((hif _ _ _ ⟨_, _, _, _, _, _, _, rfl⟩).trans (hif _ _ _ ⟨_, _, _, _, _, _, _, rfl⟩))
  · exact (hif _ _ _ ⟨_, _, _, _, _, _, _, rfl⟩).trans
      ((hif _ _ _ (flashWriteRaw_beside _ _ _ _)).trans (hcomplete _))

/-- **An event of the soft device** changes neither RAM nor the state of
`wrGo`. -/
theorem sdEvent_beside (s : Log) (e : SdEvent) : Beside s (sdEvent s e) := by
  cases e with
  | work =>
    rw [sdEvent, sdStep]
    split
    · exact ⟨_, _, _, _, _, _, _, rfl⟩
    · split
      · exact ⟨_, _, _, _, _, _, _, rfl⟩
      · exact Beside.refl s
    · exact Beside.refl s
  | success =>
    rw [sdEvent, sdSuccess]
    split
    · exact ⟨_, _, _, _, _, _, _, rfl⟩
    · split
      · exact ⟨_, _, _, _, _, _, _, rfl⟩
      · exact Beside.refl s
    · exact Beside.refl s
  | error =>
    rw [sdEvent, sdError]
    split
    · have hdone : Beside s { s with sd := none } := ⟨_, _, _, _, _, _, _, rfl⟩
      exact hdone.trans (storeFlashed_beside false _)
    · exact Beside.refl s

/-! ## Erasing -/

/-- The erase of a page is outstanding. -/
structure ErasingOp (s : Log) (page : ℕ) (done : Bool) : Prop where
  sd : s.sd = some (.erase page done)
  complete : s.flashComplete = false
  eraseOp : s.flashEraseOp = true
  writeOp : s.flashWriteOp = false
  address : s.flashAddress / pageWords = page

/-- `flashErase` starts an erase. -/
theorem erasingOp_flashErase {s : Log} (h : s.sd = none) (addr : ℕ) :
    ErasingOp (flashErase addr s) (addr / pageWords) false := by
  refine ⟨?_, rfl, rfl, rfl, rfl⟩
  change (s.sd <|> some (.erase (addr / pageWords) false)) = _
  rw [h]
  rfl

/-! ### What an event does

With an erase outstanding each event has one outcome, or two. -/

section Events

variable {s : Log} {page : ℕ} {done : Bool}

theorem ErasingOp.sdEvent_work (h : ErasingOp s page false) :
    sdEvent s .work = { erasePage page s with sd := some (.erase page true) } := by
  rw [sdEvent, sdStep, h.sd]

theorem ErasingOp.sdEvent_work_done (h : ErasingOp s page true) : sdEvent s .work = s := by
  rw [sdEvent, sdStep, h.sd]

theorem ErasingOp.sdEvent_success (h : ErasingOp s page false) : sdEvent s .success = s := by
  rw [sdEvent, sdSuccess, h.sd]

theorem ErasingOp.sdEvent_success_done (h : ErasingOp s page true) :
    sdEvent s .success = { s with sd := none, flashComplete := true } := by
  rw [sdEvent, sdSuccess, h.sd]
  rfl

/-- Once more. -/
theorem ErasingOp.sdEvent_error (h : ErasingOp s page done) (htries : 0 < s.flashTries) :
    sdEvent s .error =
      { s with sd := some (.erase page false), flashTries := s.flashTries - 1 } := by
  obtain ⟨hsd, hfc, herase, hwrite, haddr⟩ := h
  rw [sdEvent, sdError, hsd]
  simp only [storeFlashed, hfc, herase, hwrite, haddr, if_pos htries, Bool.false_eq_true, if_false,
    if_true, sdFlashPageErase]
  rfl

/-- Without the soft device. -/
theorem ErasingOp.sdEvent_error_last (h : ErasingOp s page done) (htries : ¬ 0 < s.flashTries) :
    sdEvent s .error = { erasePage page s with sd := none, flashComplete := true } := by
  obtain ⟨hsd, hfc, herase, hwrite, haddr⟩ := h
  rw [sdEvent, sdError, hsd]
  simp only [storeFlashed, hfc, herase, hwrite, haddr, if_neg htries, Bool.false_eq_true, if_false,
    if_true, erasePage]

end Events

/-- **An event while an erase is outstanding**: the page may be erased now, and
the erase goes on, or is over with the page erased. -/
theorem ErasingOp.step {s : Log} {page : ℕ} {done : Bool} (h : ErasingOp s page done)
    (e : SdEvent) :
    ∃ (now : Bool) (sd' : Option SdOp) (fc : Bool) (tries : ℕ),
      sdEvent s e = { (if now then erasePage page s else s) with
        sd := sd', flashComplete := fc, flashTries := tries } ∧
      ((fc = false ∧ ∃ done', sd' = some (.erase page done') ∧
        (done' = true → done = true ∨ now = true)) ∨
        (fc = true ∧ sd' = none ∧ (done = true ∨ now = true))) := by
  have hsame : s = { s with sd := some (.erase page done), flashComplete := false } := by
    rw [← h.sd, ← h.complete]
  cases e with
  | work =>
    cases done with
    | false =>
      exact ⟨true, some (.erase page true), false, s.flashTries,
        h.sdEvent_work.trans (by rw [← h.complete]; rfl),
        Or.inl ⟨rfl, true, rfl, fun _ => Or.inr rfl⟩⟩
    | true =>
      exact ⟨false, some (.erase page true), false, s.flashTries,
        h.sdEvent_work_done.trans hsame, Or.inl ⟨rfl, true, rfl, fun _ => Or.inl rfl⟩⟩
  | success =>
    cases done with
    | false =>
      exact ⟨false, some (.erase page false), false, s.flashTries,
        h.sdEvent_success.trans hsame, Or.inl ⟨rfl, false, rfl, nofun⟩⟩
    | true =>
      exact ⟨false, none, true, s.flashTries, h.sdEvent_success_done,
        Or.inr ⟨rfl, rfl, Or.inl rfl⟩⟩
  | error =>
    by_cases htries : 0 < s.flashTries
    · exact ⟨false, some (.erase page false), false, s.flashTries - 1,
        (h.sdEvent_error htries).trans (by simp only [h.complete, Bool.false_eq_true, if_false]),
        Or.inl ⟨rfl, false, rfl, nofun⟩⟩
    · exact ⟨true, none, true, s.flashTries, h.sdEvent_error_last htries,
        Or.inr ⟨rfl, rfl, Or.inr rfl⟩⟩

/-! ## Programming -/

/-- A write is outstanding, `j` words into it. -/
structure WritingOp (s : Log) (dst : ℕ) (src : Source) (W : List Word) (j : ℕ) : Prop where
  sd : s.sd = some (.write dst src W.length (W.take j))
  le : j ≤ W.length
  complete : s.flashComplete = false
  eraseOp : s.flashEraseOp = false
  writeOp : s.flashWriteOp = true
  address : s.flashAddress = dst
  source : s.flashSource = src
  count : s.flashCount = W.length
  /-- the words are in RAM -/
  ram : (List.range W.length).map (s.ram src) = W

/-- `flashWrite` starts a write. -/
theorem writingOp_flashWrite {s : Log} (h : s.sd = none) (dst : ℕ) (src : Source) {W : List Word}
    (hram : (List.range W.length).map (s.ram src) = W) :
    WritingOp (flashWrite dst src W.length s) dst src W 0 := by
  refine ⟨?_, Nat.zero_le _, rfl, rfl, rfl, rfl, rfl, rfl, ?_⟩
  · change (s.sd <|> some (.write dst src W.length [])) = _
    rw [h]
    rfl
  · cases src <;> exact hram

theorem WritingOp.word {s : Log} {dst : ℕ} {src : Source} {W : List Word} {j : ℕ}
    (h : WritingOp s dst src W j) {i : ℕ} (hi : i < W.length) : s.ram src i = W[i] := by
  have := congrArg (fun l => l[i]?) h.ram
  simpa [hi] using this

/-- A word programmed again, or the next one. -/
theorem burn_word {flash : ℕ → Word} {a : ℕ} {W : List Word} {j k : ℕ} (hj : j < W.length)
    (hjk : j ≤ k) (hk : k ≤ W.length) (hblank : flash (a + j) = erasedWord) :
    ∃ k', k ≤ k' ∧ j + 1 ≤ k' ∧ k' ≤ W.length ∧
      Function.update (burn flash a (W.take k)) (a + j) (burn flash a (W.take k) (a + j) &&& W[j]) =
        burn flash a (W.take k') := by
  rcases Nat.eq_or_lt_of_le hjk with rfl | hlt
  · exact ⟨j + 1, Nat.le_succ j, le_rfl, hj, burn_step hj hblank⟩
  · -- it is there already
    have hlen : j < (W.take k).length := by rw [List.length_take]; omega
    have hword : burn flash a (W.take k) (a + j) = W[j] := by
      rw [burn_at hlen, List.getElem_take]
    refine ⟨k, le_rfl, hlt, hk, ?_⟩
    rw [hword, BitVec.and_self, ← hword, Function.update_eq_self]

/-- `flashWriteRaw` programs the words it did not get to. -/
theorem program_words {s : Log} {src : Source} {W : List Word} {flash : ℕ → Word} {a k : ℕ}
    (hram : ∀ i, (h : i < W.length) → s.ram src i = W[i])
    (hflash : s.flash = burn flash a (W.take k))
    (hk : k ≤ W.length) (hblank : ∀ i < W.length, flash (a + i) = erasedWord) : ∀ n ≤ W.length,
    ∃ k', n ≤ k' ∧ k' ≤ W.length ∧
      (List.range n).foldl (fun t i => programWord (a + i) (s.ram src i) t) s =
        { s with flash := burn flash a (W.take k') } := by
  intro n
  induction n with
  | zero => exact fun _ => ⟨k, Nat.zero_le k, hk, by rw [← hflash]; rfl⟩
  | succ n ih =>
    intro hn
    obtain ⟨k', h₁, h₂, h₃⟩ := ih (by omega)
    obtain ⟨k'', -, h₄, h₅, h₆⟩ := burn_word (by omega : n < W.length) h₁ h₂ (hblank n (by omega))
    refine ⟨k'', h₄, h₅, ?_⟩
    rw [List.range_succ, List.foldl_append, h₃, List.foldl_cons, List.foldl_nil, programWord,
      hram n (by omega)]
    simp only [h₆]

/-- `flashWriteRaw`: all words are in the flash. -/
theorem flashWriteRaw_eq {s : Log} (src : Source) {W : List Word} (dst : ℕ)
    (hram : (List.range W.length).map (s.ram src) = W) :
    ∃ flash', flashWriteRaw dst src W.length s =
        { s with flash := flash', written := s.written ++ [(dst, W)] } ∧
      ∀ flash k, s.flash = burn flash dst (W.take k) → k ≤ W.length →
        (∀ i < W.length, flash (dst + i) = erasedWord) → flash' = burn flash dst W := by
  have hword : ∀ i, (h : i < W.length) → s.ram src i = W[i] := by
    intro i hi
    have := congrArg (fun l => l[i]?) hram
    simpa [hi] using this
  obtain ⟨flash', hflash'⟩ := program_flash src dst s (List.range W.length) s
  refine ⟨flash', ?_, fun flash k hflash hk hblank => ?_⟩
  · rw [flashWriteRaw, hflash', hram]
  · obtain ⟨k', h₁, -, h₂⟩ := program_words hword hflash hk hblank W.length le_rfl
    rw [hflash', List.take_of_length_le h₁] at h₂
    exact congrArg Log.flash h₂

/-- `k` words of a write have been programmed on erased flash, of which the
soft device knows of `j`. -/
structure Burnt (s : Log) (flash : ℕ → Word) (dst : ℕ) (W : List Word) (j k : ℕ) : Prop where
  flash_eq : s.flash = burn flash dst (W.take k)
  le : j ≤ k
  le_length : k ≤ W.length
  blank : ∀ i < W.length, flash (dst + i) = erasedWord

/-! ### What an event does

The same for a write. -/

section Events

variable {s : Log} {dst : ℕ} {src : Source} {W : List Word} {j : ℕ}

theorem WritingOp.length_take (h : WritingOp s dst src W j) : (W.take j).length = j := by
  rw [List.length_take]
  exact Nat.min_eq_left h.le

theorem WritingOp.sdEvent_work (h : WritingOp s dst src W j) (hj : j < W.length) :
    sdEvent s .work = { s with
      flash := Function.update s.flash (dst + j) (s.flash (dst + j) &&& W[j])
      sd := some (.write dst src W.length (W.take (j + 1))) } := by
  rw [sdEvent, sdStep, h.sd]
  simp only [h.length_take, if_pos hj, h.word hj, ← List.take_succ_eq_append_getElem hj,
    programWord]

theorem WritingOp.sdEvent_work_done (h : WritingOp s dst src W j) (hj : ¬ j < W.length) :
    sdEvent s .work = s := by
  rw [sdEvent, sdStep, h.sd]
  simp only [h.length_take, if_neg hj]

theorem WritingOp.sdEvent_success (h : WritingOp s dst src W j) (hj : j ≠ W.length) :
    sdEvent s .success = s := by
  rw [sdEvent, sdSuccess, h.sd]
  simp only [h.length_take, if_neg hj]

theorem WritingOp.sdEvent_success_done (h : WritingOp s dst src W j) (hj : j = W.length) :
    sdEvent s .success =
      { s with sd := none, flashComplete := true, written := s.written ++ [(dst, W)] } := by
  rw [sdEvent, sdSuccess, h.sd]
  simp only [storeFlashed, if_true, List.take_of_length_le hj.ge]

/-- Once more, from the first word on. -/
theorem WritingOp.sdEvent_error (h : WritingOp s dst src W j) (htries : 0 < s.flashTries) :
    sdEvent s .error =
      { s with sd := some (.write dst src W.length []), flashTries := s.flashTries - 1 } := by
  obtain ⟨hsd, -, hfc, herase, hwrite, haddr, hsrc, hcnt, -⟩ := h
  rw [sdEvent, sdError, hsd]
  simp only [storeFlashed, hfc, herase, hwrite, haddr, hsrc, hcnt, if_pos htries,
    Bool.false_eq_true, if_false, if_true, sdFlashWrite]
  rfl

/-- Without the soft device. -/
theorem WritingOp.sdEvent_error_last (h : WritingOp s dst src W j)
    (htries : ¬ 0 < s.flashTries) : sdEvent s .error =
      { flashWriteRaw dst src W.length { s with sd := none } with flashComplete := true } := by
  obtain ⟨hsd, -, hfc, herase, hwrite, haddr, hsrc, hcnt, -⟩ := h
  rw [sdEvent, sdError, hsd]
  simp only [storeFlashed, hfc, herase, hwrite, haddr, hsrc, hcnt, if_neg htries,
    Bool.false_eq_true, if_false, if_true]

/-- The words in RAM are the same then. -/
theorem WritingOp.ram_idle (h : WritingOp s dst src W j) :
    (List.range W.length).map (({ s with sd := none } : Log).ram src) = W := by
  have := h.ram
  cases src <;> exact this

end Events

/-- **An event while a write is outstanding**: the write goes on, with as many
words as before or more in the flash, or it is over with all words in the
flash. -/
theorem WritingOp.step {s : Log} {dst : ℕ} {src : Source} {W : List Word} {j : ℕ}
    (h : WritingOp s dst src W j) (e : SdEvent) :
    ∃ (flash' : ℕ → Word) (sd' : Option SdOp) (fc : Bool) (tries : ℕ)
      (written' : List (ℕ × List Word)), sdEvent s e = { s with
        flash := flash', sd := sd', flashComplete := fc, flashTries := tries,
          written := written' } ∧
      ((fc = false ∧ written' = s.written ∧ ∃ j' ≤ W.length,
          sd' = some (.write dst src W.length (W.take j')) ∧
          ∀ flash k, Burnt s flash dst W j k → ∃ k', j' ≤ k' ∧ k' ≤ W.length ∧
            flash' = burn flash dst (W.take k')) ∨
        (fc = true ∧ written' = s.written ++ [(dst, W)] ∧ sd' = none ∧
          ∀ flash k, Burnt s flash dst W j k → flash' = burn flash dst W)) := by
  have hsame : s = { s with
      flash := s.flash
      sd := some (.write dst src W.length (W.take j))
      flashComplete := false
      written := s.written } := by
    rw [← h.sd, ← h.complete]
  cases e with
  | work =>
    by_cases hlt : j < W.length
    · refine ⟨_, _, false, s.flashTries, s.written,
        (h.sdEvent_work hlt).trans (by rw [← h.complete]), Or.inl ⟨rfl, rfl, j + 1, hlt, rfl,
          fun flash₀ k hb => ?_⟩⟩
      obtain ⟨k', -, h₂, h₃, h₄⟩ := burn_word hlt hb.le hb.le_length (hb.blank j hlt)
      exact ⟨k', h₂, h₃, by rw [← h₄, hb.flash_eq]⟩
    · exact ⟨s.flash, _, false, s.flashTries, s.written, (h.sdEvent_work_done hlt).trans hsame,
        Or.inl ⟨rfl, rfl, j, h.le, rfl,
          fun flash₀ k hb => ⟨k, hb.le, hb.le_length, hb.flash_eq⟩⟩⟩
  | success =>
    by_cases heq : j = W.length
    · refine ⟨s.flash, none, true, s.flashTries, _, h.sdEvent_success_done heq,
        Or.inr ⟨rfl, rfl, rfl, fun flash₀ k hb => ?_⟩⟩
      have hle := hb.le
      rw [hb.flash_eq, List.take_of_length_le (by omega)]
    · exact ⟨s.flash, _, false, s.flashTries, s.written, (h.sdEvent_success heq).trans hsame,
        Or.inl ⟨rfl, rfl, j, h.le, rfl,
          fun flash₀ k hb => ⟨k, hb.le, hb.le_length, hb.flash_eq⟩⟩⟩
  | error =>
    by_cases htries : 0 < s.flashTries
    · refine ⟨s.flash, _, false, s.flashTries - 1, s.written,
        (h.sdEvent_error htries).trans (by rw [← h.complete]), Or.inl ⟨rfl, rfl, 0, Nat.zero_le _,
          by rw [List.take_zero], fun flash₀ k hb => ⟨k, Nat.zero_le k, hb.le_length, hb.flash_eq⟩⟩⟩
    · obtain ⟨flash', h₁, h₂⟩ := flashWriteRaw_eq src dst h.ram_idle
      exact ⟨flash', none, true, s.flashTries, _, (h.sdEvent_error_last htries).trans (by rw [h₁]),
        Or.inr ⟨rfl, rfl, rfl, fun flash₀ k hb => h₂ flash₀ k hb.flash_eq hb.le_length hb.blank⟩⟩

/-! ## Words that were not erased -/

/-- Bits are only cleared. -/
def Clears (flash flash' : ℕ → Word) : Prop := ∀ a, flash' a &&& flash a = flash' a

theorem clears_programWord (a : ℕ) (w : Word) (s : Log) :
    Clears s.flash (programWord a w s).flash := by
  intro x
  simp only [programWord]
  by_cases hx : x = a
  · subst hx
    rw [Function.update_self, BitVec.and_assoc, BitVec.and_comm w, ← BitVec.and_assoc,
      BitVec.and_self]
  · rw [Function.update_of_ne hx, BitVec.and_self]

/-- The first `j` of the words have been programmed at `a`: the flash has no
bit there that the word lacks. -/
def Covered (flash : ℕ → Word) (a : ℕ) (W : List Word) (j : ℕ) : Prop :=
  ∀ i < j, flash (a + i) &&& W.getD i 0#32 = flash (a + i)

theorem Clears.covered {f g : ℕ → Word} (h : Clears f g) {a j : ℕ} {W : List Word}
    (hc : Covered f a W j) : Covered g a W j := by
  intro i hi
  rw [← h (a + i), BitVec.and_assoc, hc i hi]

theorem covered_programWord {s : Log} {a j : ℕ} {W : List Word} (h : Covered s.flash a W j) :
    Covered (programWord (a + j) (W.getD j 0#32) s).flash a W (j + 1) := by
  intro i hi
  rcases Nat.lt_succ_iff_lt_or_eq.1 hi with hi | rfl
  · exact (clears_programWord _ _ s).covered h i hi
  · simp only [programWord, Function.update_self]
    rw [BitVec.and_assoc, BitVec.and_self]

theorem covered_flashWriteRaw (dst cnt : ℕ) (src : Source) (s : Log) :
    Covered (flashWriteRaw dst src cnt s).flash dst ((List.range cnt).map (s.ram src)) cnt := by
  have hfold : ∀ n ≤ cnt, Covered
      ((List.range n).foldl (fun t i => programWord (dst + i) (s.ram src i) t) s).flash dst
      ((List.range cnt).map (s.ram src)) n := by
    intro n
    induction n with
    | zero => exact fun _ i hi => absurd hi (Nat.not_lt_zero i)
    | succ n ih =>
      intro hn
      rw [List.range_succ, List.foldl_append, List.foldl_cons, List.foldl_nil]
      have := covered_programWord (ih (by omega))
      rwa [List.getD_eq_getElem _ _ (by simp; omega), List.getElem_map, List.getElem_range] at this
  exact hfold cnt le_rfl

/-- **An event while a write is outstanding**, wherever it goes: it goes on
over the words programmed so far, or all words have been programmed. -/
theorem WritingOp.covered_step {s : Log} {dst : ℕ} {src : Source} {W : List Word} {j : ℕ}
    (h : WritingOp s dst src W j) (hc : Covered s.flash dst W j) (e : SdEvent) :
    (∃ j', WritingOp (sdEvent s e) dst src W j' ∧ Covered (sdEvent s e).flash dst W j') ∨
      ((sdEvent s e).sd = none ∧ (sdEvent s e).flashComplete = true ∧
        Covered (sdEvent s e).flash dst W W.length ∧
        (sdEvent s e).written = s.written ++ [(dst, W)]) := by
  cases e with
  | work =>
    by_cases hlt : j < W.length
    · rw [h.sdEvent_work hlt]
      refine Or.inl ⟨j + 1, { h with sd := rfl, le := hlt, ram := ?_ }, ?_⟩
      · have := h.ram
        cases src <;> exact this
      · have := covered_programWord hc
        rwa [List.getD_eq_getElem _ _ hlt] at this
    · rw [h.sdEvent_work_done hlt]
      exact Or.inl ⟨j, h, hc⟩
  | success =>
    by_cases heq : j = W.length
    · rw [h.sdEvent_success_done heq]
      exact Or.inr ⟨rfl, rfl, heq ▸ hc, rfl⟩
    · rw [h.sdEvent_success heq]
      exact Or.inl ⟨j, h, hc⟩
  | error =>
    by_cases htries : 0 < s.flashTries
    · rw [h.sdEvent_error htries]
      refine Or.inl ⟨0, { h with sd := rfl, le := Nat.zero_le _, ram := ?_ },
        fun i hi => absurd hi (Nat.not_lt_zero i)⟩
      have := h.ram
      cases src <;> exact this
    · have hraw := covered_flashWriteRaw dst W.length src { s with sd := none }
      obtain ⟨flash', h₁, -⟩ := flashWriteRaw_eq src dst h.ram_idle
      rw [h.ram_idle, h₁] at hraw
      rw [h.sdEvent_error_last htries, h₁]
      exact Or.inr ⟨rfl, rfl, hraw, rfl⟩

end App

end AntTracer
