import AntTracer.Time.Clock

/-!
# The clock and its interrupt

The compare register of RTC2 has the tick of the next interrupt, and it is
`RTC2_IRQHandler` that puts it there, after it has called `updateTOD`. So
nothing but the handler itself, and how long an interrupt has to wait, keeps
the calls of `updateTOD` from being too far apart. `clock_kept` is that they
never are, over all runs of counter, interrupt and `TimerHibernate`, and
`clock_late` what it would take.
-/

namespace AntTracer

namespace Time

/-! ## The counter, its compare register, and the handler -/

/-- RTC2 and the clock. -/
structure Rtc where
  clock : Clock
  /-- the ticks since the counter was started -/
  tick : ℕ
  /-- `CC[0]` -/
  cc : Word
  /-- `EVENTS_COMPARE[0]` -/
  pending : Bool
  /-- history: the tick at which the handler was last run -/
  sampled : ℕ
  /-- history: how long the interrupt has been pending -/
  waited : ℕ

/-- After `TimerInit`. -/
def Rtc.start : Rtc := ⟨.boot, 0, (timerGetTick 0 + tickUnit) &&& tickMask, false, 0, 0⟩

/-- What happens next. -/
inductive RtcEvent
  /-- the counter goes on, and RTC2 may miss that it matches -/
  | tick (missed : Bool)
  /-- an interrupt that is pending is taken -/
  | interrupt
  /-- `TimerHibernate` is called -/
  | hibernate (hit : Word)

/-- The counter goes on. -/
def countTick (missed : Bool) (s : Rtc) : Rtc :=
  { s with
    tick := s.tick + 1
    pending := s.pending || (!missed && timerGetTick (s.tick + 1) == s.cc)
    waited := if s.pending then s.waited + 1 else 0 }

/-- `RTC2_IRQHandler`, and its store to the register, which has 24 bits. -/
def takeInterrupt (s : Rtc) : Rtc :=
  if s.pending then
    let r := rtc2IRQHandler (timerGetTick s.tick) s.clock
    { s with
      clock := r.1
      cc := r.2 &&& tickMask
      pending := false
      sampled := s.tick
      waited := 0 }
  else s

/-- One step. -/
def rtcStep (s : Rtc) : RtcEvent → Rtc
  | .tick missed => countTick missed s
  | .interrupt => takeInterrupt s
  | .hibernate hit => { s with clock := timerHibernate hit s.clock }

/-- No interrupt waits for longer than `late` ticks, and none is taken in the
last tick of a sixteenth of a second. RTC2 only misses a match in the very
tick after the register was set. -/
def Handled (late : ℕ) (s : Rtc) : RtcEvent → Prop
  | .tick missed => (s.pending = true → s.waited < late) ∧ (missed = true → s.tick = s.sampled)
  | .interrupt => s.tick % 2 ^ 11 ≠ 2 ^ 11 - 1
  | .hibernate _ => True

instance (late : ℕ) (s : Rtc) (e : RtcEvent) : Decidable (Handled late s e) :=
  match e with
  | .tick missed => inferInstanceAs
      (Decidable ((s.pending = true → s.waited < late) ∧ (missed = true → s.tick = s.sampled)))
  | .interrupt => inferInstanceAs (Decidable (s.tick % 2 ^ 11 ≠ 2 ^ 11 - 1))
  | .hibernate _ => .isTrue trivial

/-- The clock reads the time at which the handler was last run, which is no
more than `far` ticks ago. -/
def UpToDate (far : ℕ) (s : Rtc) : Prop :=
  s.clock.Reads s.sampled ∧ s.sampled ≤ s.tick ∧ s.tick ≤ s.sampled + far

/-- A step does not take the clock back. -/
def GoesOn (s : Rtc) (e : RtcEvent) : Prop :=
  s.tick < 2 ^ 47 → getTODZero64 s.clock ≤ getTODZero64 (rtcStep s e).clock

/-! ## The next match -/

/-- The register has 24 bits. -/
theorem toNat_and_tickMask (w : Word) : (w &&& tickMask).toNat = w.toNat % 2 ^ 24 := by
  have hmask : tickMask = mask 24 := by decide
  rw [hmask, toNat_and_mask (by decide)]

/-- What the handler does to the clock. -/
theorem rtc2IRQHandler_clock (cntr : Word) (c : Clock) :
    (rtc2IRQHandler cntr c).1 = updateTOD cntr c := by
  rw [rtc2IRQHandler]
  dsimp only
  split <;> rfl

theorem updateTOD_hibernate (cntr : Word) (c : Clock) :
    (updateTOD cntr c).hibernate = c.hibernate := rfl

/-- When it is not to hibernate, the next sixteenth of a second is the next
match. -/
theorem rtc2IRQHandler_awake (t : ℕ) {c : Clock}
    (h : c.hibernate ≤ (updateTOD (timerGetTick t) c).tod0) :
    (rtc2IRQHandler (timerGetTick t) c).2 &&& tickMask =
      timerGetTick (t + (2 ^ 11 - t % 2 ^ 11)) := by
  have hincr : tickIncr.toNat = 2048 := by decide
  rw [rtc2IRQHandler]
  dsimp only
  rw [updateTOD_hibernate, if_pos h]
  apply BitVec.eq_of_toNat_eq
  rw [toNat_and_tickMask, toNat_timerGetTick, BitVec.toNat_sub, BitVec.toNat_umod,
    BitVec.toNat_add, hincr, toNat_timerGetTick]
  omega

/-- When it is, the next match is whole seconds ahead, at most sixteen. -/
theorem rtc2IRQHandler_asleep (t : ℕ) {c : Clock}
    (h : ¬ c.hibernate ≤ (updateTOD (timerGetTick t) c).tod0) :
    ∃ secs, 0 < secs ∧ secs ≤ 16 ∧
      (rtc2IRQHandler (timerGetTick t) c).2 &&& tickMask = timerGetTick (t + secs * 2 ^ 15) := by
  have hunit : tickUnit.toNat = 32768 := by decide
  have hdiff : 0 < (c.hibernate - (updateTOD (timerGetTick t) c).tod0).toNat := by
    have := c.hibernate.isLt
    rw [BitVec.le_def] at h
    rw [BitVec.toNat_sub]
    omega
  rw [rtc2IRQHandler]
  dsimp only
  rw [updateTOD_hibernate, if_neg h]
  generalize c.hibernate - (updateTOD (timerGetTick t) c).tod0 = dly at hdiff
  change ∃ secs, 0 < secs ∧ secs ≤ 16 ∧ (timerGetTick t +
    (if dly > hibernateMaxSeconds then hibernateMaxSeconds else dly) * tickUnit) &&& tickMask = _
  have hdly : 0 < (if dly > hibernateMaxSeconds then hibernateMaxSeconds else dly).toNat ∧
      (if dly > hibernateMaxSeconds then hibernateMaxSeconds else dly).toNat ≤ 16 := by
    split
    · decide
    · rename_i hle
      exact ⟨hdiff, BitVec.le_def.1 (BitVec.not_lt.1 hle)⟩
  generalize (if dly > hibernateMaxSeconds then hibernateMaxSeconds else dly) = d at hdly
  refine ⟨d.toNat, hdly.1, hdly.2, ?_⟩
  apply BitVec.eq_of_toNat_eq
  rw [toNat_and_tickMask, toNat_timerGetTick, BitVec.toNat_add, BitVec.toNat_mul, hunit,
    toNat_timerGetTick]
  omega

/-- **What the handler sets up**: a match at least two ticks ahead, and at
most sixteen seconds; when it is not to hibernate, at most one. -/
theorem rtc2IRQHandler_next {t : ℕ} (ht : t % 2 ^ 11 ≠ 2 ^ 11 - 1) (c : Clock) :
    ∃ d, 2 ≤ d ∧ d ≤ 16 * 2 ^ 15 ∧ (c.hibernate = 0#32 → d ≤ 2 ^ 15) ∧
      (rtc2IRQHandler (timerGetTick t) c).2 &&& tickMask = timerGetTick (t + d) := by
  by_cases h : c.hibernate ≤ (updateTOD (timerGetTick t) c).tod0
  · exact ⟨2 ^ 11 - t % 2 ^ 11, by omega, by omega, fun _ => by omega, rtc2IRQHandler_awake t h⟩
  · obtain ⟨secs, hpos, hle, hmatch⟩ := rtc2IRQHandler_asleep t h
    refine ⟨secs * 2 ^ 15, by omega, by omega, fun hzero => absurd ?_ h, hmatch⟩
    rw [hzero]
    exact BitVec.le_def.2 (Nat.zero_le _)

/-! ## All runs -/

/-- **What holds between the steps**, when a match is at most `far` ticks
ahead: the clock is right, and its next call is set up, or pending. -/
structure Rtc.Armed (far late : ℕ) (s : Rtc) : Prop where
  follows : Sampling.Follows ⟨s.clock, s.sampled⟩
  /-- the match is `d` ticks after the handler was last run -/
  next : ∃ d, 2 ≤ d ∧ d ≤ far ∧ s.cc = timerGetTick (s.sampled + d) ∧
    ((s.pending = false ∧ s.sampled ≤ s.tick ∧ s.tick < s.sampled + d) ∨
      (s.pending = true ∧ s.tick = s.sampled + d + s.waited ∧ s.waited ≤ late))
  /-- it is to hibernate only where that is far enough -/
  awake : 16 * 2 ^ 15 ≤ far ∨ s.clock.hibernate = 0#32

/-- Only the time to hibernate to is changed. -/
theorem timerHibernate_follows {c : Clock} {t : ℕ} (h : Sampling.Follows ⟨c, t⟩) (hit : Word) :
    Sampling.Follows ⟨timerHibernate hit c, t⟩ := by
  rw [timerHibernate]
  split
  · exact ⟨h.reads, h.wraps, h.secs⟩
  · exact h

section Steps

variable {far late : ℕ} {s : Rtc}

theorem Rtc.Armed.start (hfar : 2 ^ 15 ≤ far) : Rtc.start.Armed far late where
  follows := Sampling.Follows.start
  next := ⟨2 ^ 15, by decide, hfar, by decide, Or.inl ⟨rfl, Nat.le_refl 0, by decide⟩⟩
  awake := Or.inr rfl

/-- The match comes in time, wherever the counter wraps. -/
theorem Rtc.Armed.tick (h : s.Armed far late) (hfar : far + late ≤ 2 ^ 24 - 2 ^ 15) {missed : Bool}
    (hC : Handled late s (.tick missed)) : (countTick missed s).Armed far late := by
  refine ⟨h.follows, ?_, h.awake⟩
  obtain ⟨d, hd2, hd, hcc, hwait⟩ := h.next
  refine ⟨d, hd2, hd, hcc, ?_⟩
  rcases hwait with ⟨hp, hle, hlt⟩ | ⟨hp, htick, hlate⟩
  · by_cases hmatch : s.tick + 1 = s.sampled + d
    · -- the handler was last run in an earlier tick, so this match is seen
      have hseen : missed = false := by
        by_contra hmiss
        have := hC.2 (by simpa using hmiss)
        omega
      refine Or.inr ⟨?_, ?_, ?_⟩
      · simp [countTick, hseen, hmatch, hcc]
      · simp only [countTick, hp, Bool.false_eq_true, if_false]
        omega
      · simp [countTick, hp]
    · have hne : timerGetTick (s.tick + 1) ≠ s.cc := by
        intro heq
        have := congrArg BitVec.toNat (heq.trans hcc)
        rw [toNat_timerGetTick, toNat_timerGetTick] at this
        omega
      refine Or.inl ⟨?_, ?_, ?_⟩
      · simp [countTick, hp, hne]
      · simp only [countTick]
        omega
      · simp only [countTick]
        omega
  · have := hC.1 hp
    refine Or.inr ⟨?_, ?_, ?_⟩
    · simp [countTick, hp]
    · simp only [countTick, hp, if_true]
      omega
    · simp only [countTick, hp, if_true]
      omega

/-- An interrupt that is taken is in time for `updateTOD`, and sets up the
next one. -/
theorem Rtc.Armed.interrupt (h : s.Armed far late) (hfar : far + late ≤ 2 ^ 24 - 2 ^ 15)
    (hlow : 2 ^ 15 ≤ far) (hC : Handled late s .interrupt) :
    (takeInterrupt s).Armed far late := by
  obtain ⟨d, hd2, hd, hcc, hwait⟩ := h.next
  rw [takeInterrupt]
  split
  · rename_i hp
    have htimely : Timely ⟨s.clock, s.sampled⟩ s.tick := by
      rcases hwait with ⟨hp', -, -⟩ | ⟨-, htick, hlate⟩
      · exact absurd hp (by simp [hp'])
      · exact ⟨by dsimp only; omega, by dsimp only; omega⟩
    obtain ⟨d', hd2', hd', hshort, hcc'⟩ := rtc2IRQHandler_next hC s.clock
    refine ⟨?_, ⟨d', hd2', ?_, hcc', Or.inl ⟨rfl, Nat.le_refl _, by dsimp only; omega⟩⟩, ?_⟩
    · dsimp only
      rw [rtc2IRQHandler_clock]
      exact h.follows.sample htimely
    · rcases h.awake with hwide | hzero
      · exact hd'.trans hwide
      · exact (hshort hzero).trans hlow
    · rcases h.awake with hwide | hzero
      · exact Or.inl hwide
      · refine Or.inr ?_
        dsimp only
        rw [rtc2IRQHandler_clock]
        exact hzero
  · exact h

/-- **A step** keeps the next interrupt set up. Where matches are to be less
than sixteen seconds ahead, `TimerHibernate` is not called. -/
theorem Rtc.Armed.step (h : s.Armed far late) (hfar : far + late ≤ 2 ^ 24 - 2 ^ 15)
    (hlow : 2 ^ 15 ≤ far) {e : RtcEvent}
    (hC : Handled late s e ∧ (16 * 2 ^ 15 ≤ far ∨ ∀ hit, e ≠ .hibernate hit)) :
    (rtcStep s e).Armed far late := by
  obtain ⟨hC, hwake⟩ := hC
  cases e with
  | tick missed => exact h.tick hfar hC
  | interrupt => exact h.interrupt hfar hlow hC
  | hibernate hit =>
    rcases hwake with hwide | hno
    · exact ⟨timerHibernate_follows h.follows hit, h.next, Or.inl hwide⟩
    · exact absurd rfl (hno hit)

theorem Rtc.Armed.sampled_le (h : s.Armed far late) : s.sampled ≤ s.tick := by
  obtain ⟨d, -, -, -, ⟨-, hle, -⟩ | ⟨-, htick, -⟩⟩ := h.next
  · exact hle
  · omega

theorem Rtc.Armed.upToDate (h : s.Armed far late) : UpToDate (far + late) s := by
  refine ⟨h.follows.reads, h.sampled_le, ?_⟩
  obtain ⟨d, -, hd, -, ⟨-, -, hlt⟩ | ⟨-, htick, hlate⟩⟩ := h.next <;> omega

end Steps

/-- A step does not take the clock back. -/
theorem Rtc.Armed.goesOn {far late : ℕ} {s : Rtc} {e : RtcEvent} (h : s.Armed far late)
    (h' : (rtcStep s e).Armed far late) : GoesOn s e := by
  intro hlt
  have hsampled : s.sampled ≤ (rtcStep s e).sampled ∧ (rtcStep s e).sampled ≤ s.tick := by
    cases e with
    | tick missed => exact ⟨Nat.le_refl _, h.sampled_le⟩
    | hibernate hit => exact ⟨Nat.le_refl _, h.sampled_le⟩
    | interrupt =>
      change s.sampled ≤ (takeInterrupt s).sampled ∧ (takeInterrupt s).sampled ≤ s.tick
      rw [takeInterrupt]
      split
      · exact ⟨h.sampled_le, Nat.le_refl _⟩
      · exact ⟨Nat.le_refl _, h.sampled_le⟩
  exact h.follows.reads.mono h'.follows.reads hsampled.1 (by dsimp only; omega)

theorem each_of_not_mem {es : List RtcEvent} (h : ∀ hit, .hibernate hit ∉ es) :
    ∀ s : Rtc, Runs.Each rtcStep (fun _ e => ∀ hit, e ≠ .hibernate hit) s es := by
  induction es with
  | nil => exact fun _ => trivial
  | cons e es ih =>
    refine fun s => ⟨fun hit he => h hit (he ▸ List.mem_cons_self), ih (fun hit hmem => ?_) _⟩
    exact h hit (List.mem_cons_of_mem _ hmem)

/-- **The clock is kept.** However long it is told to hibernate, it is never
more than sixteen seconds and the latest interrupt behind, and it never goes
back; without hibernation, a second and the latest interrupt. -/
theorem clock_kept {late : ℕ} (hlate : late ≤ 495 * 2 ^ 15) {es : List RtcEvent}
    (h : Runs.Each rtcStep (Handled late) .start es) :
    Runs.Throughout rtcStep (UpToDate (16 * 2 ^ 15 + late)) .start es ∧
      Runs.Each rtcStep GoesOn .start es ∧
      ((∀ hit, .hibernate hit ∉ es) →
        Runs.Throughout rtcStep (UpToDate (2 ^ 15 + late)) .start es) := by
  have hstep : ∀ s e, Rtc.Armed (16 * 2 ^ 15) late s → Handled late s e →
      (rtcStep s e).Armed (16 * 2 ^ 15) late := fun s e hs hC =>
    hs.step (by omega) (by decide) ⟨hC, Or.inl (Nat.le_refl _)⟩
  refine ⟨?_, ?_, fun hno => ?_⟩
  · exact (Runs.throughout_of_each hstep (Rtc.Armed.start (by decide)) h).mono fun _ hs =>
      hs.upToDate
  · exact Runs.each_of_each hstep (fun s e hs hC => hs.goesOn (hstep s e hs hC))
      (Rtc.Armed.start (by decide)) h
  · have hstep' : ∀ s e, Rtc.Armed (2 ^ 15) late s →
        Handled late s e ∧ (∀ hit, e ≠ .hibernate hit) → (rtcStep s e).Armed (2 ^ 15) late :=
      fun s e hs hC => hs.step (by omega) (Nat.le_refl _) ⟨hC.1, Or.inr hC.2⟩
    exact (Runs.throughout_of_each hstep' (Rtc.Armed.start (Nat.le_refl _))
      (Runs.each_and h (each_of_not_mem hno _))).mono fun _ hs => hs.upToDate

/-- Ticks at which RTC2 does not match. -/
theorem run_ticks {n : ℕ} {s : Rtc} (hp : s.pending = false) (hw : s.waited = 0)
    (hno : ∀ k < n, timerGetTick (s.tick + k + 1) ≠ s.cc) :
    Runs.run rtcStep s (List.replicate n (.tick false)) = { s with tick := s.tick + n } := by
  induction n with
  | zero => rfl
  | succ n ih =>
    have hlast := hno n (Nat.lt_succ_self n)
    rw [List.replicate_succ', Runs.run_append, ih fun k hk => hno k (Nat.lt_succ_of_lt hk)]
    simp [rtcStep, countTick, hp, hw, hlast, ← Nat.add_assoc]

/-- No interrupt waits in them. -/
theorem each_ticks {late n : ℕ} {s : Rtc} (hp : s.pending = false) (hw : s.waited = 0)
    (hno : ∀ k < n, timerGetTick (s.tick + k + 1) ≠ s.cc) :
    Runs.Each rtcStep (Handled late) s (List.replicate n (.tick false)) := by
  induction n with
  | zero => trivial
  | succ n ih =>
    have hno' : ∀ k < n, timerGetTick (s.tick + k + 1) ≠ s.cc := fun k hk =>
      hno k (Nat.lt_succ_of_lt hk)
    rw [List.replicate_succ', Runs.each_append, run_ticks hp hw hno']
    exact ⟨ih hno', ⟨fun hpending => absurd (hp.symm.trans hpending) Bool.false_ne_true, nofun⟩,
      trivial⟩

/-- Told to hibernate at the start, up to the first match. -/
def napTicks : List RtcEvent := List.replicate 32767 (.tick false)

/-- The interrupt is taken a tick after it. -/
def napEvents : List RtcEvent :=
  .hibernate 20#32 :: (napTicks ++ [.tick false, .tick false, .interrupt, .tick true])

theorem not_match_nap : ∀ k < 32767,
    timerGetTick ((rtcStep .start (.hibernate 20#32)).tick + k + 1) ≠
      (rtcStep .start (.hibernate 20#32)).cc := by
  intro k hk heq
  have hcntr := congrArg BitVec.toNat heq
  have hcc : (rtcStep .start (.hibernate 20#32)).cc.toNat = 32768 := by decide
  have htick : (rtcStep .start (.hibernate 20#32)).tick = 0 := rfl
  rw [toNat_timerGetTick, hcc, htick] at hcntr
  omega

theorem run_napTicks : Runs.run rtcStep (rtcStep .start (.hibernate 20#32)) napTicks =
    { rtcStep .start (.hibernate 20#32) with tick := 32767 } :=
  run_ticks rfl rfl not_match_nap

theorem run_napEvents : Runs.run rtcStep .start napEvents =
    Runs.run rtcStep { rtcStep .start (.hibernate 20#32) with tick := 32767 }
      [.tick false, .tick false, .interrupt, .tick true] := by
  rw [napEvents, Runs.run_cons, Runs.run_append, run_napTicks]

theorem each_napEvents : Runs.Each rtcStep (Handled 5) .start napEvents := by
  refine ⟨trivial, Runs.each_append.2 ⟨each_ticks rfl rfl not_match_nap, ?_⟩⟩
  rw [run_napTicks]
  decide

/-- The handler runs at the tick after the first match, and not before. -/
theorem clock_kept_nap :
    Runs.Throughout rtcStep (UpToDate (16 * 2 ^ 15 + 5)) .start napEvents ∧
      Runs.Each rtcStep GoesOn .start napEvents ∧
      ((∀ hit, .hibernate hit ∉ napEvents) →
        Runs.Throughout rtcStep (UpToDate (2 ^ 15 + 5)) .start napEvents) ∧
      (Runs.run rtcStep .start napEvents).sampled = 32769 ∧
      (Runs.run rtcStep .start napEvents).clock.tod0 = 1#32 := by
  obtain ⟨hdate, hon, hawake⟩ := clock_kept (by decide) each_napEvents
  exact ⟨hdate, hon, hawake, by rw [run_napEvents]; decide, by rw [run_napEvents]; decide⟩

/-! ## A match that is missed -/

/-- An interrupt is taken, RTC2 misses a match in the next tick, and the
counter goes on. -/
def missEvents (n : ℕ) : List RtcEvent :=
  .interrupt :: .tick true :: List.replicate n (.tick false)

theorem timerGetTick_round (t : ℕ) : timerGetTick (t + 2 ^ 24) = timerGetTick t := by
  apply BitVec.eq_of_toNat_eq
  rw [toNat_timerGetTick, toNat_timerGetTick]
  omega

section Missed

variable {s : Rtc}

/-- In the last tick of a sixteenth of a second, the handler sets up the next
one. -/
theorem rtcStep_missed (hp : s.pending = true) (hzero : s.clock.hibernate = 0#32)
    (hlast : s.tick % 2 ^ 11 = 2 ^ 11 - 1) : rtcStep (rtcStep s .interrupt) (.tick true) =
      ⟨updateTOD (timerGetTick s.tick) s.clock, s.tick + 1, timerGetTick (s.tick + 1), false,
        s.tick, 0⟩ := by
  have hsoon : 2 ^ 11 - s.tick % 2 ^ 11 = 1 := by omega
  have hcc := rtc2IRQHandler_awake s.tick (c := s.clock)
    (by rw [hzero]; exact BitVec.le_def.2 (Nat.zero_le _))
  rw [hsoon] at hcc
  rw [← hcc, ← rtc2IRQHandler_clock]
  simp [rtcStep, takeInterrupt, countTick, hp]

/-- And when that is missed, no other match comes for a round. -/
theorem run_missEvents (hp : s.pending = true) (hzero : s.clock.hibernate = 0#32)
    (hlast : s.tick % 2 ^ 11 = 2 ^ 11 - 1) {n : ℕ} (hn : n < 2 ^ 24) :
    Runs.run rtcStep s (missEvents n) =
      ⟨updateTOD (timerGetTick s.tick) s.clock, s.tick + 1 + n, timerGetTick (s.tick + 1), false,
        s.tick, 0⟩ := by
  rw [missEvents, Runs.run_cons, Runs.run_cons, rtcStep_missed hp hzero hlast,
    run_ticks rfl rfl fun k hk heq => ?_]
  have hcntr := congrArg BitVec.toNat heq
  rw [toNat_timerGetTick, toNat_timerGetTick] at hcntr
  dsimp only at hcntr
  omega

/-- With the last tick of the round it comes. -/
theorem run_missEvents_round (hp : s.pending = true) (hzero : s.clock.hibernate = 0#32)
    (hlast : s.tick % 2 ^ 11 = 2 ^ 11 - 1) : Runs.run rtcStep s (missEvents (2 ^ 24)) =
      ⟨updateTOD (timerGetTick s.tick) s.clock, s.tick + 1 + 2 ^ 24, timerGetTick (s.tick + 1),
        true, s.tick, 0⟩ := by
  obtain ⟨n, hn⟩ : ∃ n, n + 1 = 2 ^ 24 := ⟨2 ^ 24 - 1, by omega⟩
  have hmatch : timerGetTick (s.tick + 1 + n + 1) = timerGetTick (s.tick + 1) := by
    rw [Nat.add_assoc (s.tick + 1), hn, timerGetTick_round]
  have hsplit : missEvents (2 ^ 24) = missEvents n ++ [.tick false] := by
    rw [← hn, missEvents, missEvents, List.replicate_succ']
    rfl
  rw [hsplit, Runs.run_append, run_missEvents hp hzero hlast (by omega), ← hn]
  simp [rtcStep, countTick, hmatch, ← Nat.add_assoc]

end Missed

/-- **What RTC2 may miss** is the match that an interrupt taken in the last
tick of a sixteenth of a second sets up. No interrupt comes until the counter
has gone all the way round, and the clock is 512 seconds late from then on. -/
theorem clock_late {late : ℕ} {s : Rtc} (h : s.Armed (2 ^ 15) late)
    (hlate : late ≤ 495 * 2 ^ 15) (hp : s.pending = true)
    (hlast : s.tick % 2 ^ 11 = 2 ^ 11 - 1) :
    (∀ n < 2 ^ 24, (Runs.run rtcStep s (missEvents n)).pending = false) ∧
    (Runs.run rtcStep s (missEvents (2 ^ 24) ++ [.interrupt])).tick = s.tick + 1 + 2 ^ 24 ∧
    (Runs.run rtcStep s (missEvents (2 ^ 24) ++ [.interrupt])).clock.Reads (s.tick + 1) := by
  have hzero : s.clock.hibernate = 0#32 := h.awake.resolve_left (by omega)
  have htimely : Timely ⟨s.clock, s.sampled⟩ s.tick := by
    obtain ⟨-, hle, hfar⟩ := h.upToDate
    exact ⟨hle, by dsimp only; omega⟩
  have hround := run_missEvents_round hp hzero hlast
  refine ⟨fun n hn => by rw [run_missEvents hp hzero hlast hn], ?_, ?_⟩
  · rw [Runs.run_append, hround]
    rfl
  · rw [Runs.run_append, hround]
    -- the handler sees the counter as it was a round ago
    change (rtc2IRQHandler (timerGetTick (s.tick + 1 + 2 ^ 24))
      (updateTOD (timerGetTick s.tick) s.clock)).1.Reads (s.tick + 1)
    rw [timerGetTick_round, rtc2IRQHandler_clock]
    refine ((h.follows.sample htimely).sample (t := s.tick + 1) ?_).reads
    exact ⟨Nat.le_succ _, by change s.tick + 1 ≤ s.tick + _; omega⟩

/-- The first interrupt after boot, 2047 ticks late. -/
theorem clock_late_first :
    let s : Rtc := ⟨.boot, 34815, timerGetTick 32768, true, 0, 2047⟩
    (∀ n < 2 ^ 24, (Runs.run rtcStep s (missEvents n)).pending = false) ∧
    (Runs.run rtcStep s (missEvents (2 ^ 24) ++ [.interrupt])).tick = 34816 + 2 ^ 24 ∧
    (Runs.run rtcStep s (missEvents (2 ^ 24) ++ [.interrupt])).clock.Reads 34816 :=
  have harmed : Rtc.Armed (2 ^ 15) 2047 ⟨.boot, 34815, timerGetTick 32768, true, 0, 2047⟩ :=
    ⟨Sampling.Follows.start, ⟨32768, by decide, by decide, rfl,
      Or.inr ⟨rfl, rfl, Nat.le_refl _⟩⟩, Or.inr rfl⟩
  clock_late harmed (by decide) rfl rfl

end Time

end AntTracer
