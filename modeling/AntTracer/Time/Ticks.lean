import AntTracer.Record.Word

/-!
# Medium speed timers

`Timer_t` counts ticks of RTC2, a 24-bit counter at 32768 Hz, and is meant for
times up to 512 seconds, the range of the counter. The conversions multiply in
32 bits before they divide. `mediumTimer_iff` has the times for which the
product fits, and those for which nothing is seen of it when it does not.
-/

namespace AntTracer

namespace Time

/-! ## The program -/

/-- `TICK_UNIT`: ticks from the 32 KHz clock. -/
abbrev tickUnit : Word := 32768#32

/-- `TICK_MAX`. -/
abbrev tickMax : Word := 1#32 <<< 24

/-- `TICK_MASK`. -/
abbrev tickMask : Word := tickMax - 1#32

/-- `TICK2MS`. -/
def tick2ms (t : Word) : Word := (t * 1000#32) / tickUnit

/-- `MS2TICK`. -/
def ms2tick (t : Word) : Word := (t * tickUnit) / 1000#32

/-- `Timer_t`. -/
structure Timer where
  /-- start time -/
  start : Word
  /-- delay time -/
  delay : Word

/-- `TimerGetTick`: what `COUNTER` reads at tick `t` since the start. -/
def timerGetTick (t : ℕ) : Word := BitVec.ofNat 32 (t % 2 ^ 24)

/-- `TimerSetMs`, at tick `t`. -/
def timerSetMs (t : ℕ) (ms : Word) : Timer := ⟨timerGetTick t, ms2tick ms⟩

/-- `TimerElapsedMs`, at tick `t`. -/
def timerElapsedMs (t : ℕ) (tp : Timer) : Word := tick2ms ((timerGetTick t - tp.start) &&& tickMask)

/-- `TimerTimeout`, at tick `t`. -/
def timerTimeout (t : ℕ) (tp : Timer) : Bool :=
  decide ((timerGetTick t - tp.start) &&& tickMask > tp.delay)

/-! ## Ticks -/

/-- The ticks since a timer was set, across a wrap of the counter. -/
theorem toNat_ticks (t : ℕ) {k : ℕ} (hk : k < 2 ^ 24) :
    ((timerGetTick (t + k) - timerGetTick t) &&& tickMask).toNat = k := by
  have hmask : tickMask = mask 24 := by decide
  rw [hmask, toNat_and_mask (by decide), BitVec.toNat_sub, timerGetTick, timerGetTick,
    BitVec.toNat_ofNat, BitVec.toNat_ofNat]
  omega

theorem toNat_tick2ms (t : Word) : (tick2ms t).toNat = t.toNat * 1000 % 2 ^ 32 / 32768 := by
  rw [tick2ms, BitVec.toNat_udiv, BitVec.toNat_mul]
  rfl

theorem toNat_ms2tick (t : Word) : (ms2tick t).toNat = t.toNat * 32768 % 2 ^ 32 / 1000 := by
  rw [ms2tick, BitVec.toNat_udiv, BitVec.toNat_mul]
  rfl

/-! ## Both directions -/

/-- A timer set to `ms` milliseconds at tick `t` is exact `k` ticks later. -/
def MediumTimer (t ms k : ℕ) : Prop :=
  (timerTimeout (t + k) (timerSetMs t (BitVec.ofNat 32 ms)) = true ↔ ms * 32768 / 1000 < k) ∧
    (timerElapsedMs (t + k) (timerSetMs t (BitVec.ofNat 32 ms))).toNat = k * 1000 / 32768

/-- The ticks fit when they are scaled to milliseconds. -/
theorem elapsed_iff (t ms : ℕ) {k : ℕ} (hk : k < 2 ^ 24) :
    (timerElapsedMs (t + k) (timerSetMs t (BitVec.ofNat 32 ms))).toNat = k * 1000 / 32768 ↔
      k * 1000 < 2 ^ 32 := by
  have hticks := toNat_ticks t hk
  rw [timerElapsedMs, toNat_tick2ms, timerSetMs, hticks]
  omega

/-- The milliseconds fit when they are scaled to ticks, or the timer has not
run for what is left of them. -/
theorem timeout_iff (t : ℕ) {ms k : ℕ} (hms : ms < 512000) (hk : k < 2 ^ 24)
    (hfit : k * 1000 < 2 ^ 32) :
    (timerTimeout (t + k) (timerSetMs t (BitVec.ofNat 32 ms)) = true ↔ ms * 32768 / 1000 < k) ↔
      ms < 2 ^ 17 ∨ k * 1000 ≤ ms % 2 ^ 17 * 32768 := by
  have hticks := toNat_ticks t hk
  have hdelay : (timerSetMs t (BitVec.ofNat 32 ms)).delay.toNat = ms % 2 ^ 17 * 32768 / 1000 := by
    rw [timerSetMs, toNat_ms2tick, BitVec.toNat_ofNat]
    omega
  have hout : timerTimeout (t + k) (timerSetMs t (BitVec.ofNat 32 ms)) = true ↔
      ms % 2 ^ 17 * 32768 / 1000 < k := by
    rw [timerTimeout, decide_eq_true_eq, gt_iff_lt, BitVec.lt_def, hdelay]
    change _ < ((timerGetTick (t + k) - timerGetTick t) &&& tickMask).toNat ↔ _
    rw [hticks]
  rw [hout]
  by_cases h : ms < 2 ^ 17
  · rw [Nat.mod_eq_of_lt h]
    exact iff_of_true Iff.rfl (Or.inl h)
  · -- the timer is set to less than was asked for
    have hlate : ¬ ms * 32768 / 1000 < k := by omega
    rw [iff_false_right hlate, or_iff_right h]
    omega

/-- **Where a medium speed timer is exact**, of its documented range of 512
seconds: the ticks since the start fit when they are scaled to milliseconds,
and the milliseconds asked for do when they are scaled to ticks, or fewer
ticks have gone by than are left of them after the wrap. -/
theorem mediumTimer_iff (t : ℕ) {ms k : ℕ} (hms : ms < 512000) (hk : k < 2 ^ 24) :
    MediumTimer t ms k ↔ k * 1000 < 2 ^ 32 ∧ (ms < 2 ^ 17 ∨ k * 1000 ≤ ms % 2 ^ 17 * 32768) := by
  rw [MediumTimer, elapsed_iff t ms hk, and_comm]
  exact and_congr_right fun hfit => timeout_iff t hms hk hfit

/-- A timer of 100 seconds, set just before the counter wraps, after 60. -/
theorem mediumTimer_iff_wrap :
    MediumTimer (2 ^ 24 - 1) 100000 (60 * 32768) ↔
      60 * 32768 * 1000 < 2 ^ 32 ∧
        (100000 < 2 ^ 17 ∨ 60 * 32768 * 1000 ≤ 100000 % 2 ^ 17 * 32768) :=
  mediumTimer_iff _ (by decide) (by decide)

/-- **A timer of 132 seconds** runs out in one. -/
theorem not_mediumTimer : ¬ MediumTimer 0 132000 (2 * 32768) := by
  unfold MediumTimer
  decide

end Time

end AntTracer
