import AntTracer.App.Sound

/-!
# One flash operation at a time

`StoreSuperLoop`, `wrGo` and `StoreFlashed` share one flag for the completion
of an operation. From any flash, whatever the soft device answers and whenever
the passes come, the soft device is not called while it has an operation, and
no state that waits for one is left before it has been done (`one_at_a_time`).
-/

namespace AntTracer

namespace App

/-! ## The operation a state waits for -/

/-- **The operation started last has been done**: the page is erased, or all
words have been programmed. -/
def Applied (l : Log) : Prop :=
  (l.flashEraseOp = true ∧ l.flashWriteOp = false ∧
      ∀ a, a / pageWords = l.flashAddress / pageWords → l.flash a = erasedWord) ∨
    (l.flashEraseOp = false ∧ l.flashWriteOp = true ∧
      l.written.getLast? =
        some (l.flashAddress, (List.range l.flashCount).map (l.ram l.flashSource)) ∧
      Covered l.flash l.flashAddress ((List.range l.flashCount).map (l.ram l.flashSource))
        l.flashCount)

/-- An operation is outstanding, or has been done and reported. -/
inductive Waiting (l : Log) : Prop
  | erasing {page : ℕ} {done : Bool} (op : ErasingOp l page done)
    (blank : done = true → ∀ a, a / pageWords = page → l.flash a = erasedWord)
  | writing {dst : ℕ} {src : Source} {W : List Word} {j : ℕ} (op : WritingOp l dst src W j)
    (covered : Covered l.flash dst W j)
  | answered (sd : l.sd = none) (complete : l.flashComplete = true) (applied : Applied l)

/-- An operation was started on a free soft device, or none was. -/
def Called (l : Log) : Prop :=
  l.sd = none ∨ ∃ l₀ : Log, l₀.sd = none ∧
    ((∃ addr, l = flashErase addr l₀) ∨ ∃ dst src cnt, l = flashWrite dst src cnt l₀)

/-- An operation was given to a free soft device again, or none was. -/
def Reissued (l : Log) : Prop :=
  l.sd = none ∨ ∃ l₀ : Log, l₀.sd = none ∧
    ((∃ page, l = sdFlashPageErase page l₀) ∨ ∃ dst src cnt, l = sdFlashWrite dst src cnt l₀)

section Log

variable {l : Log}

theorem waiting_flashErase (h : l.sd = none) (addr : ℕ) : Waiting (flashErase addr l) :=
  .erasing (erasingOp_flashErase h addr) nofun

theorem waiting_flashWrite (h : l.sd = none) (dst : ℕ) (src : Source) (cnt : ℕ) :
    Waiting (flashWrite dst src cnt l) := by
  have hlen : ((List.range cnt).map (l.ram src)).length = cnt := by simp
  have hop := writingOp_flashWrite h dst src (W := (List.range cnt).map (l.ram src)) (by rw [hlen])
  rw [hlen] at hop
  exact .writing hop fun i hi => absurd hi (Nat.not_lt_zero i)

theorem Called.waiting (h : Called l) (hsd : l.sd ≠ none) : Waiting l := by
  obtain ⟨l₀, h₀, ⟨addr, rfl⟩ | ⟨dst, src, cnt, rfl⟩⟩ := h.resolve_left hsd
  · exact waiting_flashErase h₀ addr
  · exact waiting_flashWrite h₀ dst src cnt

theorem Waiting.answered_of_none (h : Waiting l) (hsd : l.sd = none) : Applied l := by
  cases h with
  | erasing op => rw [op.sd] at hsd; cases hsd
  | writing op => rw [op.sd] at hsd; cases hsd
  | answered _ _ applied => exact applied

/-- What is complete has been answered. -/
theorem Waiting.free (h : Waiting l) (hfc : l.flashComplete = true) : l.sd = none := by
  cases h with
  | erasing op => rw [op.complete] at hfc; cases hfc
  | writing op => rw [op.complete] at hfc; cases hfc
  | answered sd => exact sd

/-- What is outstanding is not complete. -/
theorem Waiting.busy (h : Waiting l) (hsd : l.sd ≠ none) : l.flashComplete = false := by
  cases h with
  | erasing op => exact op.complete
  | writing op => exact op.complete
  | answered sd => exact absurd sd hsd

/-- **An event of the soft device.** -/
theorem Waiting.step (h : Waiting l) (e : SdEvent) : Waiting (sdEvent l e) := by
  cases h with
  | @erasing page done op blank =>
    obtain ⟨now, sd', fc, tries, heq, hout⟩ := op.step e
    have hblank : (done = true ∨ now = true) →
        ∀ a, a / pageWords = page → (sdEvent l e).flash a = erasedWord := by
      intro hor a ha
      rw [heq]
      cases now with
      | false => exact blank (hor.resolve_right Bool.false_ne_true) a ha
      | true => exact if_pos ha
    obtain ⟨rfl, done', rfl, hdone⟩ | ⟨rfl, rfl, hnow⟩ := hout
    · refine @Waiting.erasing _ page done' ?_ fun hd => hblank (hdone hd)
      rw [heq]
      cases now <;> exact ⟨rfl, rfl, op.eraseOp, op.writeOp, op.address⟩
    · refine .answered (by rw [heq]) (by rw [heq]) (Or.inl ⟨?_, ?_, fun a ha => hblank hnow a ?_⟩)
      · rw [heq]
        cases now <;> exact op.eraseOp
      · rw [heq]
        cases now <;> exact op.writeOp
      · rw [ha, heq]
        cases now <;> exact op.address
  | @writing dst src W j op covered =>
    rcases op.covered_step covered e with ⟨j', op', hc⟩ | ⟨hsd, hfc, hc, hwritten⟩
    · exact .writing op' hc
    · obtain ⟨flash', sd', fc, tries, rs', written', refused', hb⟩ := sdEvent_beside l e
      have hram : (List.range W.length).map ((sdEvent l e).ram src) = W := by
        have := op.ram
        rw [hb]
        cases src <;> exact this
      have haddr : (sdEvent l e).flashAddress = dst := by rw [hb]; exact op.address
      have hsrc : (sdEvent l e).flashSource = src := by rw [hb]; exact op.source
      have hcnt : (sdEvent l e).flashCount = W.length := by rw [hb]; exact op.count
      refine .answered hsd hfc (Or.inr ⟨?_, ?_, ?_, ?_⟩)
      · rw [hb]
        exact op.eraseOp
      · rw [hb]
        exact op.writeOp
      · rw [haddr, hsrc, hcnt, hram, hwritten, List.getLast?_append]
        rfl
      · rw [haddr, hsrc, hcnt, hram]
        exact hc
  | answered sd complete applied =>
    rw [sdEvent_of_none sd]
    exact .answered sd complete applied

/-- It makes no call that is refused. -/
theorem Waiting.refused (h : Waiting l) (e : SdEvent) : (sdEvent l e).refused = l.refused := by
  cases h with
  | erasing op =>
    obtain ⟨now, sd', fc, tries, heq, -⟩ := op.step e
    rw [heq]
    cases now <;> rfl
  | writing op =>
    obtain ⟨flash', sd', fc, tries, written', heq, -⟩ := op.step e
    rw [heq]
  | answered sd => rw [sdEvent_of_none sd]

theorem Waiting.setSu (h : Waiting l) (u : Union) : Waiting (l.setSu u) := by
  cases h with
  | erasing op blank =>
    exact .erasing ⟨op.sd, op.complete, op.eraseOp, op.writeOp, op.address⟩ blank
  | @writing dst src W j op covered =>
    refine .writing ⟨op.sd, op.le, op.complete, op.eraseOp, op.writeOp, op.address,
      op.source, op.count, ?_⟩ covered
    have := op.ram
    cases src <;> exact this
  | answered sd complete applied =>
    refine .answered sd complete ?_
    have hram : (l.setSu u).ram = l.ram := by
      funext src
      cases src <;> rfl
    unfold Applied
    rw [hram]
    exact applied

theorem sd_flashWriteRaw (dst : ℕ) (src : Source) (cnt : ℕ) :
    (flashWriteRaw dst src cnt l).sd = l.sd := by
  obtain ⟨flash, h⟩ := program_flash src dst l (List.range cnt) l
  rw [flashWriteRaw, h]

/-- **`StoreFlashed` on a failure.** -/
theorem Waiting.reissued (h : Waiting l) : Reissued (sdEvent l .error) := by
  cases h with
  | answered sd => exact Or.inl (by rw [sdEvent_of_none sd]; exact sd)
  | @erasing page done op =>
    by_cases htries : 0 < l.flashTries
    · exact Or.inr ⟨{ l with sd := none, flashTries := l.flashTries - 1 }, rfl,
        Or.inl ⟨page, op.sdEvent_error htries⟩⟩
    · exact Or.inl (by rw [op.sdEvent_error_last htries])
  | @writing dst src W j op =>
    by_cases htries : 0 < l.flashTries
    · exact Or.inr ⟨{ l with sd := none, flashTries := l.flashTries - 1 }, rfl,
        Or.inr ⟨dst, src, W.length, op.sdEvent_error htries⟩⟩
    · refine Or.inl ?_
      rw [op.sdEvent_error_last htries]
      exact sd_flashWriteRaw _ _ _

/-! ## `wrGo` -/

/-- What `wrGo` hands back: it waits for the operation it started on a free
soft device, or it started none. Nothing is refused. -/
def Handed (l : Log) (r : Log × Bool) : Prop :=
  r.1.refused = l.refused ∧
    ((r.2 = true ∧ r.1.sd ≠ none ∧ Called r.1) ∨ (r.2 = false ∧ r.1.sd = none))

theorem sd_flashErase (h : l.sd = none) (addr : ℕ) :
    (flashErase addr l).sd = some (.erase (addr / pageWords) false) :=
  (erasingOp_flashErase h addr).sd

theorem sd_flashWrite (h : l.sd = none) (dst : ℕ) (src : Source) (cnt : ℕ) :
    (flashWrite dst src cnt l).sd = some (.write dst src cnt []) := by
  change (l.sd <|> some (.write dst src cnt [])) = _
  rw [h]
  rfl

/-- A free soft device refuses nothing. -/
theorem refused_flashErase (h : l.sd = none) (addr : ℕ) :
    (flashErase addr l).refused = l.refused := by
  change (l.sd.isSome || l.refused) = _
  rw [h]
  rfl

theorem refused_flashWrite (h : l.sd = none) (dst : ℕ) (src : Source) (cnt : ℕ) :
    (flashWrite dst src cnt l).refused = l.refused := by
  change (l.sd.isSome || l.refused) = _
  rw [h]
  rfl

theorem handed_erase (h : l.sd = none) (addr : ℕ) : Handed l (flashErase addr l, true) := by
  refine ⟨refused_flashErase h addr, Or.inl ⟨rfl, ?_, Or.inr ⟨l, h, Or.inl ⟨addr, rfl⟩⟩⟩⟩
  rw [sd_flashErase h]
  exact nofun

theorem handed_write (h : l.sd = none) (dst : ℕ) (src : Source) (cnt : ℕ) :
    Handed l (flashWrite dst src cnt l, true) := by
  refine ⟨refused_flashWrite h dst src cnt,
    Or.inl ⟨rfl, ?_, Or.inr ⟨l, h, Or.inr ⟨dst, src, cnt, rfl⟩⟩⟩⟩
  rw [sd_flashWrite h]
  exact nofun

theorem handed_wrWrite (h : l.sd = none) (ptr cnt : ℕ) : Handed l (wrWrite ptr cnt l) := by
  unfold wrWrite
  split
  · exact ⟨rfl, Or.inr ⟨rfl, h⟩⟩
  · dsimp only
    split
    · exact handed_write (by exact h) _ _ _
    · exact handed_write (by exact h) _ _ _

theorem handed_wrErase (h : l.sd = none) (ptr pe remain cnt : ℕ) :
    Handed l (wrErase ptr pe remain cnt l) := by
  unfold wrErase
  split
  · dsimp only
    generalize (if pe ≥ storeEnd then storeStart else pe) = next
    split
    · exact handed_erase h _
    split
    · exact handed_wrWrite (by exact h) _ _
    · exact handed_wrWrite (by exact h) _ _
  · exact handed_wrWrite (by exact h) _ _

/-- **`wrGo` starts an operation if it is to be waited for, and only then.** -/
theorem handed_wrGo (h : l.sd = none) : Handed l (wrGo l) := by
  unfold wrGo
  dsimp only
  split
  · split
    · exact ⟨rfl, Or.inr ⟨rfl, h⟩⟩
    · exact handed_wrErase (by exact h) _ _ _ _
  · exact handed_wrErase (by exact h) _ _ _ _
  · exact handed_wrErase (by exact h) _ _ _ _
  · exact handed_wrWrite (by exact h) _ _
  · exact handed_wrWrite (by exact h) _ _
  · exact ⟨rfl, Or.inr ⟨rfl, h⟩⟩
  · exact ⟨rfl, Or.inr ⟨rfl, h⟩⟩

theorem handed_append (h : l.sd = none) (ty : Word) (fs : List (ℕ × Word)) :
    Handed l (appendRecord ty fs l) :=
  handed_wrGo (by exact h)

theorem Handed.called {r : Log × Bool} (h : Handed l r) : Called r.1 :=
  h.2.elim (fun h => h.2.2) fun h => Or.inl h.2

end Log

/-! ## The flow of the store -/

/-- **What the store waits for.** -/
structure Flow (s : Store) : Prop where
  resting : Resting s
  free : s.state = .init0 ∨ s.state = .idle ∨ s.state = .config1 → s.log.sd = none
  waiting : s.state = .writing ∨ s.state = .config2 ∨ s.state = .config3 → Waiting s.log

section Store

variable {s s' : Store}

theorem Flow.of_waiting (hrest : Resting s)
    (hs : s.state = .writing ∨ s.state = .config2 ∨ s.state = .config3) (h : Waiting s.log) :
    Flow s := by
  refine ⟨hrest, fun hs' => ?_, fun _ => h⟩
  rcases hs with hs | hs | hs <;> rw [hs] at hs' <;> simp at hs'

theorem Flow.of_free (hrest : Resting s)
    (hs : s.state = .init0 ∨ s.state = .idle ∨ s.state = .config1) (h : s.log.sd = none) :
    Flow s := by
  refine ⟨hrest, fun _ => h, fun hs' => ?_⟩
  rcases hs with hs | hs | hs <;> rw [hs] at hs' <;> simp at hs'

/-- Nothing is outstanding when a state goes on. -/
theorem Flow.round_free (h : Flow s) (hround : Round s s') : s.log.sd = none := by
  cases hround with
  | init0 hs => exact h.free (Or.inl hs)
  | slot hs => exact h.free (Or.inr (Or.inl hs))
  | full hs => exact h.free (Or.inr (Or.inl hs))
  | part p st hs => exact h.free (Or.inr (Or.inl hs))
  | go hs hfc => exact (h.waiting (Or.inl hs)).free hfc
  | erase hs => exact h.free (Or.inr (Or.inr hs))
  | rewrite hs hfc => exact (h.waiting (Or.inr (Or.inl hs))).free hfc
  | saved hs hfc => exact (h.waiting (Or.inr (Or.inr hs))).free hfc

theorem init0_device (s : Store) : (init0 s).log.sd = s.log.sd ∧
    (init0 s).log.refused = s.log.refused ∧ (init0 s).log.flash = s.log.flash := by
  obtain ⟨b, hinit⟩ := init0_eq s
  obtain ⟨st, hst⟩ := deliverAll_eq (rawRecords storeRegion s.log.flash) s.log
  rw [hinit, hst, setUpWrite]
  split <;> exact ⟨rfl, rfl, rfl⟩

/-- A call of `wrGo`. -/
theorem flow_handed {l : Log} {r : Log × Bool} (h : Handed l r)
    (hsaved : s.savedState = .idle ∨ s.savedState = .config1) :
    Flow (handed r s) := by
  have hrest := resting_handed (r := r) hsaved
  rcases h.2 with ⟨hr, hsd, hcalled⟩ | ⟨hr, hsd⟩
  · exact .of_waiting hrest (Or.inl (if_pos hr)) (hcalled.waiting hsd)
  · have hs : (handed r s).state = s.savedState := if_neg (by rw [hr]; exact Bool.false_ne_true)
    exact .of_free hrest (Or.inr (hsaved.imp hs.trans hs.trans)) hsd

/-- **A round starts at most one operation, on a free soft device.** -/
theorem Flow.round (h : Flow s) (hround : Round s s') : Called s'.log ∧ Flow s' := by
  have hsd := h.round_free hround
  have hrest := hround.resting h.resting
  cases hround with
  | init0 hs =>
    have hsd' : (init0 s).log.sd = none := (init0_device s).1.trans hsd
    exact ⟨Or.inl hsd', .of_free hrest (Or.inr (Or.inl rfl)) hsd'⟩
  | @slot i hs hflag hi =>
    exact ⟨Or.inr ⟨(copyConfig (takeConfig s)).log, hsd, Or.inr ⟨_, _, _, rfl⟩⟩,
      .of_waiting hrest (Or.inr (Or.inr rfl)) (waiting_flashWrite (by exact hsd) _ _ _)⟩
  | full hs hflag hfull =>
    have hgo := handed_append (l := (copyConfig (takeConfig s)).log) (by exact hsd) rtConfig
      (configFields (copyConfig (takeConfig s)).log.staging.config)
    exact ⟨hgo.called, flow_handed hgo (Or.inr rfl)⟩
  | part p st hs hflag =>
    have hgo := handed_append hsd p.type (p.fields s.log.staging.su)
    exact ⟨hgo.called, flow_handed hgo (Or.inl rfl)⟩
  | go hs hfc =>
    have hgo := handed_wrGo hsd
    exact ⟨hgo.called, flow_handed hgo (h.resting.savedState hs)⟩
  | erase hs =>
    exact ⟨Or.inr ⟨s.log, hsd, Or.inl ⟨_, rfl⟩⟩,
      .of_waiting hrest (Or.inr (Or.inl rfl)) (waiting_flashErase hsd _)⟩
  | rewrite hs hfc =>
    exact ⟨Or.inr ⟨s.log, hsd, Or.inr ⟨_, _, _, rfl⟩⟩,
      .of_waiting hrest (Or.inr (Or.inr rfl)) (waiting_flashWrite hsd _ _ _)⟩
  | saved hs hfc => exact ⟨Or.inl hsd, .of_free hrest (Or.inr (Or.inl rfl)) hsd⟩

/-- **Nothing a round calls is refused.** -/
theorem Flow.round_refused (h : Flow s) (hround : Round s s') :
    s'.log.refused = s.log.refused := by
  have hsd := h.round_free hround
  cases hround with
  | init0 hs => exact (init0_device s).2.1
  | slot => exact refused_flashWrite (l := (copyConfig (takeConfig s)).log) hsd _ _ _
  | full => exact (handed_append (l := (copyConfig (takeConfig s)).log) (by exact hsd) _ _).1
  | part p st hs hflag => exact (handed_append hsd p.type (p.fields s.log.staging.su)).1
  | go hs hfc => exact (handed_wrGo hsd).1
  | erase hs => exact refused_flashErase hsd configStart
  | rewrite hs hfc => exact refused_flashWrite hsd _ _ _
  | saved hs hfc => rfl

/-- A state that waits lets a pass do nothing. -/
theorem storeSuperLoop_busy (hs : s.state = .writing ∨ s.state = .config2 ∨ s.state = .config3)
    (hfc : ¬ s.log.flashComplete = true) : storeSuperLoop s = (s, false) := by
  rcases hs with hs | hs | hs
  · rw [storeSuperLoop, storeLoop, hs]
    exact if_pos hfc
  · rw [storeSuperLoop, storeLoop, hs]
    exact if_pos hfc
  · rw [storeSuperLoop, storeLoop, hs]
    exact if_pos hfc

/-- The state waits if an operation is outstanding. -/
theorem Flow.waits (h : Flow s) (hsd : s.log.sd ≠ none) :
    s.state = .writing ∨ s.state = .config2 ∨ s.state = .config3 := by
  rcases h.resting.state with hs | hs | hs | hs | hs | hs
  · exact absurd (h.free (Or.inl hs)) hsd
  · exact absurd (h.free (Or.inr (Or.inl hs))) hsd
  · exact Or.inl hs
  · exact absurd (h.free (Or.inr (Or.inr hs))) hsd
  · exact Or.inr (Or.inl hs)
  · exact Or.inr (Or.inr hs)

/-- An operation that is outstanding is waited for. -/
theorem Flow.outstanding (h : Flow s) (hsd : s.log.sd ≠ none) :
    Waiting s.log := h.waiting (h.waits hsd)

/-- While an operation is outstanding a pass does nothing. -/
theorem Flow.busy (h : Flow s) (hsd : s.log.sd ≠ none) : storeSuperLoop s = (s, false) :=
  storeSuperLoop_busy (h.waits hsd) (by rw [(h.outstanding hsd).busy hsd]; exact Bool.false_ne_true)

theorem Flow.rounds (h : Flow s) (hrounds : Relation.ReflTransGen Round s s') : Flow s' := by
  induction hrounds with
  | refl => exact h
  | tail _ hround ih => exact (ih.round hround).2

theorem Flow.rounds_refused (h : Flow s) (hrounds : Relation.ReflTransGen Round s s') :
    s'.log.refused = s.log.refused := by
  induction hrounds with
  | refl => rfl
  | tail hrounds hround ih => exact ((h.rounds hrounds).round_refused hround).trans ih

theorem Flow.loop (h : Flow s) : Flow (storeSuperLoop s).1 :=
  h.rounds (storeLoop_rounds 7 s h.resting)

theorem Flow.congr (h : Flow s) (hstate : s'.state = s.state)
    (hsaved : s'.savedState = s.savedState)
    (hlog : s'.log = s.log) : Flow s' :=
  ⟨⟨by rw [hstate]; exact h.resting.state, by rw [hstate, hsaved]; exact h.resting.savedState⟩,
    by rw [hstate, hlog]; exact h.free, by rw [hstate, hlog]; exact h.waiting⟩

theorem Flow.setUnion (h : Flow s) (f : Union → Union) : Flow (App.setUnion f s) :=
  ⟨⟨h.resting.state, h.resting.savedState⟩, h.free, fun hs => (h.waiting hs).setSu _⟩

theorem Flow.device (h : Flow s) (e : SdEvent) : Flow { s with log := sdEvent s.log e } := by
  refine ⟨⟨h.resting.state, h.resting.savedState⟩, fun hs => ?_, fun hs => (h.waiting hs).step e⟩
  have hsd := h.free hs
  rwa [sdEvent_of_none hsd]

theorem flow_startUp (s : Store) : Flow (startUp s) := .of_free ⟨Or.inl rfl, nofun⟩ (Or.inl rfl) rfl

/-- **Every event keeps the flow.** -/
theorem Flow.step (h : Flow s) (e : SystemEvent) : Flow (systemStep s e) := by
  cases e with
  | reboot => exact flow_startUp s
  | event e =>
    cases e with
    | loop => exact h.loop
    | device e => exact h.device e
    | tick => exact h.congr rfl rfl rfl
    | change => exact h.congr rfl rfl rfl
    | factory => exact h.congr rfl rfl rfl
    | save => exact h.congr rfl rfl rfl
    | info sui => exact (h.setUnion fun u => u.setSui sui).congr rfl rfl rfl
    | chunk sud => exact (h.setUnion fun u => u.setSud sud).congr rfl rfl rfl
    | exec sux => exact (h.setUnion fun u => u.setSux sux).congr rfl rfl rfl

/-- An event of the soft device makes no call that is refused. -/
theorem Flow.device_refused (h : Flow s) (e : SdEvent) :
    (sdEvent s.log e).refused = s.log.refused := by
  by_cases hsd : s.log.sd = none
  · rw [sdEvent_of_none hsd]
  · exact (h.outstanding hsd).refused e

/-- **No event makes a call that is refused.** -/
theorem Flow.step_refused (h : Flow s) (e : SystemEvent) :
    (systemStep s e).log.refused = s.log.refused := by
  cases e with
  | reboot => rfl
  | event e =>
    cases e with
    | loop => exact h.rounds_refused (storeLoop_rounds 7 s h.resting)
    | device e => exact h.device_refused e
    | tick | change | factory | save | info | chunk | exec => rfl

/-- The states in which a pass is one round at most. -/
def Waits (s : Store) : Prop := s.state = .init0 ∨ s.state = .config2 ∨ s.state = .config3

/-- A pass from these states is one round. -/
theorem storeSuperLoop_single (hs : Waits s) :
    (storeSuperLoop s).1 = s ∨ Round s (storeSuperLoop s).1 := by
  rcases hs with hs | hs | hs
  · rw [storeSuperLoop, storeLoop, hs]
    exact Or.inr (.init0 hs)
  · rw [storeSuperLoop, storeLoop, hs]
    dsimp only
    split
    · exact Or.inl rfl
    · rename_i hfc
      exact Or.inr (.rewrite hs (not_not.1 hfc))
  · rw [storeSuperLoop, storeLoop, hs]
    dsimp only
    split
    · exact Or.inl rfl
    · rename_i hfc
      exact Or.inr (.saved hs (not_not.1 hfc))

theorem not_waits_handed {r : Log × Bool} (h : s.savedState = .idle ∨ s.savedState = .config1) :
    ¬ Waits (handed r s) := by
  unfold Waits
  rcases r with ⟨l, _ | _⟩
  · have hs : (handed (l, false) s).state = s.savedState := rfl
    rw [hs]
    rcases h with h | h <;> rw [h] <;> decide
  · exact fun hs => by rcases hs with hs | hs | hs <;> cases hs

/-- A round leads to such a state only with an operation outstanding. -/
theorem Flow.round_waits (h : Flow s) (hround : Round s s') (hs : ¬ Waits s) (hs' : Waits s') :
    s'.log.sd ≠ none := by
  have hsd := h.round_free hround
  cases hround with
  | init0 h₀ => exact absurd (Or.inl h₀) hs
  | slot =>
    change (flashWrite _ _ _ (copyConfig (takeConfig s)).log).sd ≠ none
    rw [sd_flashWrite (by exact hsd)]
    exact nofun
  | full => exact absurd hs' (not_waits_handed (Or.inr rfl))
  | part => exact absurd hs' (not_waits_handed (Or.inl rfl))
  | go h₀ => exact absurd hs' (not_waits_handed (h.resting.savedState h₀))
  | erase =>
    rw [sd_flashErase hsd]
    exact nofun
  | rewrite h₀ => exact absurd (Or.inr (Or.inl h₀)) hs
  | saved h₀ => exact absurd (Or.inr (Or.inr h₀)) hs

/-- **The rule for passes**, which are one round from the states that wait, or
rounds from the others. -/
theorem Flow.pass (h : Flow s) (Inv Fin : Store → Prop) (hinv : ¬ Waits s → Inv s) (hfin : Fin s)
    (hfirst : ∀ s', Waits s → Round s s' → Fin s')
    (hstep : ∀ s s', Flow s → ¬ Waits s → Inv s → Round s s' → Inv s')
    (hend : ∀ s, Inv s → Fin s) : Fin (storeSuperLoop s).1 := by
  by_cases hs : Waits s
  · rcases storeSuperLoop_single hs with heq | hround
    · rw [heq]
      exact hfin
    · exact hfirst _ hs hround
  · have hrounds := storeLoop_rounds 7 s h.resting
    rw [storeSuperLoop]
    generalize (storeLoop 7 s).1 = s' at hrounds
    have hall : Flow s' ∧ Inv s' ∧ (Waits s' → s'.log.sd ≠ none) := by
      induction hrounds with
      | refl => exact ⟨h, hinv hs, fun hs' => absurd hs' hs⟩
      | tail _ hround ih =>
        obtain ⟨hflow, hinv', hbusy⟩ := ih
        have hfree : ¬ Waits _ := fun hs' => hbusy hs' (hflow.round_free hround)
        exact ⟨(hflow.round hround).2, hstep _ _ hflow hfree hinv' hround,
          hflow.round_waits hround hfree⟩
    exact hend s' hall.2.1

/-- **One operation at a time**, and no state goes on before it is done. -/
structure OneOperation (s : Store) : Prop where
  /-- no call of the soft device was made while it had an operation -/
  unrefused : s.log.refused = false
  /-- a pass goes from round to round -/
  rounds : Relation.ReflTransGen Round s (storeSuperLoop s).1
  /-- while an operation is unanswered a pass does nothing -/
  busy : s.log.sd ≠ none → storeSuperLoop s = (s, false)
  /-- a round starts on a free soft device, and makes one call at most -/
  called : ∀ s' s'', Relation.ReflTransGen Round s s' → Round s' s'' →
    s'.log.sd = none ∧ Called s''.log ∧ s''.log.refused = false
  /-- `StoreFlashed` gives the operation that failed to a free soft device -/
  reissued : s.log.sd ≠ none →
    Reissued (sdEvent s.log .error) ∧ (sdEvent s.log .error).refused = false
  /-- a round leaves a state that waits for an operation when that is done -/
  applied : ∀ s' s'', Relation.ReflTransGen Round s s' → Round s' s'' →
    s'.state = .writing ∨ s'.state = .config2 ∨ s'.state = .config3 → Applied s'.log

theorem Flow.oneOperation (h : Flow s) (hnone : s.log.refused = false) : OneOperation s where
  unrefused := hnone
  rounds := storeLoop_rounds 7 s h.resting
  busy := h.busy
  called _ _ hrounds hround :=
    ⟨(h.rounds hrounds).round_free hround, ((h.rounds hrounds).round hround).1,
      (h.rounds_refused (hrounds.tail hround)).trans hnone⟩
  reissued hsd := ⟨(h.outstanding hsd).reissued, (h.device_refused .error).trans hnone⟩
  applied _ _ hrounds hround hs :=
    ((h.rounds hrounds).waiting hs).answered_of_none ((h.rounds hrounds).round_free hround)

/-- **From any flash, over any events.** -/
theorem one_at_a_time (flash : ℕ → Word) (es : List SystemEvent) :
    OneOperation (Runs.run systemStep (Store.first flash) es) := by
  have hfirst : Flow (Store.first flash) := flow_startUp (Store.off flash)
  have hstep : ∀ s e, Flow s ∧ s.log.refused = false →
      Flow (systemStep s e) ∧ (systemStep s e).log.refused = false :=
    fun s e hs => ⟨hs.1.step e, (hs.1.step_refused e).trans hs.2⟩
  obtain ⟨hflow, hnone⟩ := Runs.inv_run hstep ⟨hfirst, rfl⟩ es
  exact hflow.oneOperation hnone

end Store

end App

end AntTracer
