import AntTracer.Library.Runs
import AntTracer.Time.Ticks

/-!
# The time of day

`updateTOD` derives the seconds since boot from a 24-bit counter, and takes it
that the counter has wrapped when its seconds go down. `clock_follows` is the
true time against this one, for as long as the samples are not too far apart.

The time of day is the time since boot and an offset of 64 bits, which may be
negative: `agree_iff` says when the conversion back gets along with that.
-/

namespace AntTracer

namespace Time

/-! ## The program -/

/-- The variables of `rtc.c`. -/
structure Clock where
  /-- seconds since boot -/
  tod0 : Word
  /-- and the fraction, in 1/256 seconds, in the top byte -/
  tod0Frac : Word
  /-- offset from `tod0` to get the real time of day -/
  todOffset : BitVec 64
  /-- how often the counter has wrapped -/
  todWraps : Word
  /-- seconds since it was zero -/
  todSecs : Word
  /-- the time to hibernate to -/
  hibernate : Word

/-- `EIGHT_HOURS`. -/
abbrev eightHours : ℕ := 8 * 60 * 60

/-- At boot. -/
def Clock.boot : Clock := ⟨0#32, 0#32, BitVec.ofNat 64 eightHours <<< 32, 0#32, 0#32, 0#32⟩

/-- `((u64)s0 << 32) | f0`. -/
def stamp64 (s0 f0 : Word) : BitVec 64 := (s0.setWidth 64 <<< 32) ||| f0.setWidth 64

/-- `GetTODZero`. -/
def getTODZero (c : Clock) : Word := c.tod0

/-- `GetTODZero64`, when no interrupt comes between its reads. -/
def getTODZero64 (c : Clock) : BitVec 64 := stamp64 c.tod0 c.tod0Frac

/-- `GetTOD64`. -/
def getTOD64 (c : Clock) : BitVec 64 := getTODZero64 c + c.todOffset

/-- `GetTOD`. -/
def getTOD (c : Clock) : Word := (getTOD64 c >>> 32).setWidth 32

/-- `SetTOD64`. -/
def setTOD64 (t : BitVec 64) (_hopcount : Byte) (c : Clock) : Clock :=
  { c with todOffset := t - getTODZero64 c }

/-- `Future`. -/
def future (secs : Word) (c : Clock) : Word := c.tod0 + secs

/-- `ConvertTOD`. -/
def convertTOD (tod : Word) (c : Clock) : Word :=
  let tod64 := tod.setWidth 64 <<< 32
  if tod64 ≥ c.todOffset then ((tod64 - c.todOffset) >>> 32).setWidth 32
  else if tod > 0#32 then 1#32
  else 0#32

/-- `updateTOD`. -/
def updateTOD (cntr : Word) (c : Clock) : Clock :=
  let frac := (cntr % tickUnit) / (tickUnit / 256#32)
  let secs := cntr / tickUnit
  let wraps := if secs < c.todSecs then c.todWraps + 1#32 else c.todWraps
  { c with
    todWraps := wraps
    todSecs := secs
    tod0 := wraps * (tickMax / tickUnit) + secs
    tod0Frac := frac <<< 24 }

/-- `OQ_LFCLK / HZ`. -/
abbrev tickIncr : Word := 32768#32 / 16#32

/-- `HIBERNATE_MAX_SECONDS`. -/
abbrev hibernateMaxSeconds : Word := 16#32

/-- `RTC2_IRQHandler`: the clock, and the next match. -/
def rtc2IRQHandler (cntr : Word) (c : Clock) : Clock × Word :=
  let c := updateTOD cntr c
  if c.hibernate ≤ c.tod0 then
    let next := cntr + tickIncr
    (c, next - next % tickIncr)
  else
    let dly := c.hibernate - c.tod0
    let dly := if dly > hibernateMaxSeconds then hibernateMaxSeconds else dly
    (c, cntr + dly * tickUnit)

/-- `TimerHibernate`. -/
def timerHibernate (hit : Word) (c : Clock) : Clock :=
  if hit = 0#32 ∨ hit > c.hibernate then { c with hibernate := hit } else c

/-! ## Stamps -/

theorem toNat_stamp64 (s0 f0 : Word) : (stamp64 s0 f0).toNat = s0.toNat * 2 ^ 32 + f0.toNat := by
  have hs := s0.isLt
  have hf := f0.isLt
  have hshift : s0.toNat <<< 32 % 2 ^ 64 = 2 ^ 32 * s0.toNat := by
    rw [Nat.shiftLeft_eq]
    omega
  rw [stamp64, BitVec.toNat_or, BitVec.toNat_shiftLeft, BitVec.toNat_setWidth_of_le (by decide),
    BitVec.toNat_setWidth_of_le (by decide), hshift, ← Nat.two_pow_add_eq_or_of_lt hf]
  omega

/-- Stamps are ordered by their seconds, then by their fractions. -/
theorem stamp64_le {s f s' f' : Word} :
    stamp64 s f ≤ stamp64 s' f' ↔ s < s' ∨ (s = s' ∧ f ≤ f') := by
  have hf := f.isLt
  have hf' := f'.isLt
  rw [BitVec.le_def, BitVec.lt_def, BitVec.le_def, ← BitVec.toNat_inj, toNat_stamp64, toNat_stamp64]
  omega

/-! ## Following the time -/

/-- The clock after a call of `updateTOD`, and the tick of that call. -/
structure Sampling where
  clock : Clock
  tick : ℕ

/-- At boot. -/
def Sampling.start : Sampling := ⟨.boot, 0⟩

/-- `updateTOD` is called at tick `t`. -/
def sample (s : Sampling) (t : ℕ) : Sampling := ⟨updateTOD (timerGetTick t) s.clock, t⟩

/-- The calls are at most a second less than the range of the counter apart. -/
def Timely (s : Sampling) (t : ℕ) : Prop := s.tick ≤ t ∧ t ≤ s.tick + (2 ^ 24 - 2 ^ 15)

/-- The clock reads what it should at tick `t`. -/
def Clock.Reads (c : Clock) (t : ℕ) : Prop :=
  c.tod0.toNat = t / 2 ^ 15 % 2 ^ 32 ∧ c.tod0Frac.toNat = t % 2 ^ 15 / 128 * 2 ^ 24

/-- A call does not take the clock back. -/
def NeverBack (s : Sampling) (t : ℕ) : Prop :=
  t < 2 ^ 47 → getTODZero64 s.clock ≤ getTODZero64 (sample s t).clock

/-- **What holds between the calls.** -/
structure Sampling.Follows (s : Sampling) : Prop where
  reads : s.clock.Reads s.tick
  /-- the wraps counted are those there were -/
  wraps : s.clock.todWraps.toNat = s.tick / 2 ^ 24 % 2 ^ 32
  secs : s.clock.todSecs.toNat = s.tick / 2 ^ 15 % 512

theorem Sampling.Follows.start : Sampling.start.Follows := ⟨⟨rfl, rfl⟩, rfl, rfl⟩

theorem toNat_timerGetTick (t : ℕ) : (timerGetTick t).toNat = t % 2 ^ 24 := by
  rw [timerGetTick, BitVec.toNat_ofNat]
  omega

/-- What `updateTOD` does to the wraps. -/
theorem toNat_todWraps (t : ℕ) (c : Clock) : (updateTOD (timerGetTick t) c).todWraps.toNat =
    (c.todWraps.toNat + if t / 2 ^ 15 % 512 < c.todSecs.toNat then 1 else 0) % 2 ^ 32 := by
  have hsecs : (timerGetTick t / tickUnit).toNat = t / 2 ^ 15 % 512 := by
    rw [BitVec.toNat_udiv, toNat_timerGetTick]
    change t % 2 ^ 24 / 32768 = _
    omega
  have hlt := c.todWraps.isLt
  rw [updateTOD, ← hsecs]
  dsimp only
  by_cases h : timerGetTick t / tickUnit < c.todSecs
  · rw [if_pos h, if_pos (BitVec.lt_def.1 h), BitVec.toNat_add]
    rfl
  · rw [if_neg h, if_neg fun h' => h (BitVec.lt_def.2 h')]
    omega

theorem toNat_todSecs (t : ℕ) (c : Clock) :
    (updateTOD (timerGetTick t) c).todSecs.toNat = t / 2 ^ 15 % 512 := by
  rw [updateTOD, BitVec.toNat_udiv, toNat_timerGetTick]
  change t % 2 ^ 24 / 32768 = _
  omega

/-- The seconds since boot are those of the wraps and those since. -/
theorem toNat_tod0 (t : ℕ) (c : Clock) : (updateTOD (timerGetTick t) c).tod0.toNat =
    ((updateTOD (timerGetTick t) c).todWraps.toNat * 512 + t / 2 ^ 15 % 512) % 2 ^ 32 := by
  have hrange : (tickMax / tickUnit).toNat = 512 := by decide
  rw [← toNat_todSecs t c]
  change (BitVec.toNat (_ * (tickMax / tickUnit) + _)) = _
  rw [BitVec.toNat_add, BitVec.toNat_mul, hrange, Nat.mod_add_mod]
  rfl

theorem toNat_tod0Frac (t : ℕ) (c : Clock) :
    (updateTOD (timerGetTick t) c).tod0Frac.toNat = t % 2 ^ 15 / 128 * 2 ^ 24 := by
  have hunit : (tickUnit / 256#32).toNat = 128 := by decide
  rw [updateTOD, BitVec.toNat_shiftLeft, BitVec.toNat_udiv, BitVec.toNat_umod, hunit,
    toNat_timerGetTick, Nat.shiftLeft_eq]
  change t % 2 ^ 24 % 32768 / 128 * 2 ^ 24 % 2 ^ 32 = _
  omega

/-- **A call of `updateTOD`** in time. The seconds go down just when the
counter has wrapped. -/
theorem Sampling.Follows.sample {s : Sampling} (h : s.Follows) {t : ℕ} (ht : Timely s t) :
    (sample s t).Follows := by
  obtain ⟨hle, hgap⟩ := ht
  have hwraps : (updateTOD (timerGetTick t) s.clock).todWraps.toNat = t / 2 ^ 24 % 2 ^ 32 := by
    rw [toNat_todWraps, h.wraps, h.secs]
    -- it has wrapped once at most, and then not come as far as it was
    by_cases hw : t / 2 ^ 24 = s.tick / 2 ^ 24
    · rw [if_neg (by omega)]
      omega
    · rw [if_pos (by omega)]
      omega
  refine ⟨⟨?_, toNat_tod0Frac t _⟩, hwraps, toNat_todSecs t _⟩
  change (updateTOD (timerGetTick t) s.clock).tod0.toNat = t / 2 ^ 15 % 2 ^ 32
  rw [toNat_tod0, hwraps]
  omega

theorem Clock.Reads.mono {c c' : Clock} {t t' : ℕ} (h : c.Reads t) (h' : c'.Reads t') (hle : t ≤ t')
    (hlt : t' < 2 ^ 47) : getTODZero64 c ≤ getTODZero64 c' := by
  obtain ⟨h₁, h₂⟩ := h
  obtain ⟨h₁', h₂'⟩ := h'
  rw [getTODZero64, getTODZero64, BitVec.le_def, toNat_stamp64, toNat_stamp64, h₁, h₂, h₁', h₂']
  omega

/-- **The clock follows the time**, and never goes back, if it is looked at in
time. -/
theorem clock_follows (ts : List ℕ) (h : Runs.Each sample Timely .start ts) :
    Runs.Throughout sample (fun s => s.clock.Reads s.tick) .start ts ∧
      Runs.Each sample NeverBack .start ts := by
  have hstep : ∀ s t, Sampling.Follows s → Timely s t → (sample s t).Follows :=
    fun _ _ hs ht => hs.sample ht
  constructor
  · exact (Runs.throughout_of_each hstep Sampling.Follows.start h).mono fun _ hs => hs.reads
  · refine Runs.each_of_each hstep (fun s t hs ht hlt => ?_) Sampling.Follows.start h
    exact hs.reads.mono (hs.sample ht).reads ht.1 hlt

/-- Five minutes, and five more. -/
theorem clock_follows_minutes :
    Runs.Throughout sample (fun s => s.clock.Reads s.tick) .start [300 * 32768, 600 * 32768] ∧
      Runs.Each sample NeverBack .start [300 * 32768, 600 * 32768] :=
  clock_follows _ ⟨⟨by decide, by decide⟩, ⟨by decide, by decide⟩, trivial⟩

/-! ## Setting the time of day -/

/-- The clock after calls of `updateTOD`. -/
def Clock.later (c : Clock) (cntrs : List Word) : Clock :=
  Runs.run (fun c cntr => updateTOD cntr c) c cntrs

/-- The time since boot that has gone by between two states of the clock. -/
def Clock.advance (c c' : Clock) : BitVec 64 := getTODZero64 c' - getTODZero64 c

/-- **Setting and converting agree**, for a time set at `c`, right then and
after calls of `updateTOD`. -/
structure Agree (t : BitVec 64) (hopcount : Byte) (c : Clock) (cntrs : List Word) : Prop where
  /-- the time set is the time read -/
  set : getTOD64 (setTOD64 t hopcount c) = t
  /-- and goes on from there -/
  advances : getTOD64 ((setTOD64 t hopcount c).later cntrs) =
    t + c.advance ((setTOD64 t hopcount c).later cntrs)
  /-- until it wraps it is converted back, to the second -/
  converts : t.toNat + (c.advance ((setTOD64 t hopcount c).later cntrs)).toNat < 2 ^ 64 →
    |((convertTOD (getTOD ((setTOD64 t hopcount c).later cntrs))
        ((setTOD64 t hopcount c).later cntrs)).toNat : ℤ) -
      (getTODZero ((setTOD64 t hopcount c).later cntrs)).toNat| ≤ 1

/-- Where they agree, for a time `t` set when the time since boot was `z₀` and
converted when it is `z`: the time has wrapped, or it was not set back behind
the time since boot, or that has wrapped, or it is the first two seconds after
boot, or the third with a second of the time of day gone by. -/
def Convertible (t z₀ z : BitVec 64) : Prop :=
  2 ^ 64 ≤ t.toNat + (z - z₀).toNat ∨ z₀ ≤ t ∨ z < z₀ ∨ z.toNat < 2 * 2 ^ 32 ∨
    (z.toNat < 3 * 2 ^ 32 ∧ 2 ^ 32 ≤ t.toNat + (z - z₀).toNat)

theorem later_todOffset (c : Clock) (cntrs : List Word) :
    (c.later cntrs).todOffset = c.todOffset :=
  @Runs.inv_run Clock Word (fun c cntr => updateTOD cntr c) (fun c' => c'.todOffset = c.todOffset)
    (fun _ _ h => h) c rfl cntrs

theorem toNat_convertTOD (tod : Word) (c : Clock) : (convertTOD tod c).toNat =
    if c.todOffset.toNat ≤ tod.toNat * 2 ^ 32 then
      (tod.toNat * 2 ^ 32 - c.todOffset.toNat) / 2 ^ 32
    else if 0 < tod.toNat then 1 else 0 := by
  have htod := tod.isLt
  have h64 : (tod.setWidth 64 <<< 32).toNat = tod.toNat * 2 ^ 32 := by
    rw [BitVec.toNat_shiftLeft, BitVec.toNat_setWidth_of_le (by decide), Nat.shiftLeft_eq]
    omega
  have hiff : tod.setWidth 64 <<< 32 ≥ c.todOffset ↔ c.todOffset.toNat ≤ tod.toNat * 2 ^ 32 := by
    rw [ge_iff_le, BitVec.le_def, h64]
  by_cases h : tod.setWidth 64 <<< 32 ≥ c.todOffset
  · have h' := hiff.1 h
    rw [if_pos h', convertTOD, if_pos h, BitVec.toNat_setWidth, BitVec.toNat_ushiftRight,
      BitVec.toNat_sub, h64, Nat.shiftRight_eq_div_pow]
    omega
  · rw [if_neg (mt hiff.2 h), convertTOD, if_neg h]
    have hpos : tod > 0#32 ↔ 0 < tod.toNat := by
      rw [gt_iff_lt, BitVec.lt_def]
      rfl
    simp only [hpos]
    split <;> rfl

/-- **Converting back**, with all quantities as numbers: the offset `o` is
that of a time `t` set at `z₀`, and `tod` the seconds read at `z`. -/
theorem converts_iff {t z₀ z o d tod r : ℕ} (ht : t < 2 ^ 64) (hz₀ : z₀ < 2 ^ 64) (hz : z < 2 ^ 64)
    (ho : o = (2 ^ 64 - z₀ + t) % 2 ^ 64) (hd : d = (2 ^ 64 - z₀ + z) % 2 ^ 64)
    (htod : tod = (t + d) / 2 ^ 32) (hfit : t + d < 2 ^ 64)
    (hr : r = if o ≤ tod * 2 ^ 32 then (tod * 2 ^ 32 - o) / 2 ^ 32 else if 0 < tod then 1 else 0) :
    (r ≤ z / 2 ^ 32 + 1 ∧ z / 2 ^ 32 ≤ r + 1) ↔
      z₀ ≤ t ∨ z < z₀ ∨ z < 2 * 2 ^ 32 ∨ (z < 3 * 2 ^ 32 ∧ 2 ^ 32 ≤ t + d) := by
  by_cases hle : z₀ ≤ t
  · refine ⟨fun _ => Or.inl hle, fun _ => ?_⟩
    split at hr
    · omega
    · split at hr <;> omega
  by_cases hwrap : z < z₀
  · -- the time since boot has wrapped, and the offset with it
    refine ⟨fun _ => Or.inr (Or.inl hwrap), fun _ => ?_⟩
    split at hr
    · omega
    · split at hr <;> omega
  -- the offset is negative, so it is above every time of day
  have hbelow : ¬ o ≤ tod * 2 ^ 32 := by omega
  rw [if_neg hbelow] at hr
  split at hr <;> omega

/-- The clock `c'` when the time of day `t` was set at the clock `c`. -/
theorem abs_convertTOD_le {t : BitVec 64} {c c' : Clock}
    (hoff : c'.todOffset = t - getTODZero64 c) (hadv : getTOD64 c' = t + c.advance c')
    (hfit : t.toNat + (c.advance c').toNat < 2 ^ 64) :
    |((convertTOD (getTOD c') c').toNat : ℤ) - (getTODZero c').toNat| ≤ 1 ↔
      getTODZero64 c ≤ t ∨ getTODZero64 c' < getTODZero64 c ∨
        (getTODZero64 c').toNat < 2 * 2 ^ 32 ∨ ((getTODZero64 c').toNat < 3 * 2 ^ 32 ∧
          2 ^ 32 ≤ t.toNat + (c.advance c').toNat) := by
  have hsecs : (getTODZero64 c').toNat / 2 ^ 32 = (getTODZero c').toNat := by
    have := c'.tod0Frac.isLt
    rw [getTODZero64, toNat_stamp64, getTODZero]
    omega
  have htod : (getTOD c').toNat = (t.toNat + (c.advance c').toNat) / 2 ^ 32 := by
    rw [getTOD, hadv, BitVec.toNat_setWidth, BitVec.toNat_ushiftRight, BitVec.toNat_add,
      Nat.mod_eq_of_lt hfit, Nat.shiftRight_eq_div_pow]
    omega
  have ho : c'.todOffset.toNat = (2 ^ 64 - (getTODZero64 c).toNat + t.toNat) % 2 ^ 64 := by
    rw [hoff]
    exact BitVec.toNat_sub _ _
  have hd : (c.advance c').toNat =
      (2 ^ 64 - (getTODZero64 c).toNat + (getTODZero64 c').toNat) % 2 ^ 64 := BitVec.toNat_sub _ _
  have hiff := converts_iff t.isLt (getTODZero64 c).isLt (getTODZero64 c').isLt ho hd htod hfit
    (toNat_convertTOD (getTOD c') c')
  rw [BitVec.le_def, BitVec.lt_def, ← hiff, hsecs, abs_le]
  constructor <;> rintro ⟨h₁, h₂⟩ <;> constructor <;> omega

/-- **Where setting and converting the time agree.** -/
theorem agree_iff (t : BitVec 64) (hopcount : Byte) (c : Clock) (cntrs : List Word) :
    Agree t hopcount c cntrs ↔
      Convertible t (getTODZero64 c) (getTODZero64 ((setTOD64 t hopcount c).later cntrs)) := by
  have hoff := later_todOffset (setTOD64 t hopcount c) cntrs
  generalize hc' : (setTOD64 t hopcount c).later cntrs = c' at hoff
  have hset : getTOD64 (setTOD64 t hopcount c) = t := by
    change getTODZero64 c + (t - getTODZero64 c) = t
    rw [BitVec.add_comm, BitVec.sub_add_cancel]
  have hadv : getTOD64 c' = t + c.advance c' := by
    rw [getTOD64, hoff, Clock.advance]
    change getTODZero64 c' + (t - getTODZero64 c) = t + (getTODZero64 c' - getTODZero64 c)
    bv_omega
  constructor
  · rintro ⟨-, -, h⟩
    rw [hc'] at h
    rw [Convertible]
    by_cases hfit : t.toNat + (c.advance c').toNat < 2 ^ 64
    · exact Or.inr ((abs_convertTOD_le hoff hadv hfit).1 (h hfit))
    · exact Or.inl (not_lt.1 hfit)
  · intro h
    refine ⟨hset, by rw [hc']; exact hadv, ?_⟩
    rw [hc']
    exact fun hfit => (abs_convertTOD_le hoff hadv hfit).2 (h.resolve_left (not_le.2 hfit))

/-- The clock 100 seconds after boot. -/
def hundredSeconds : Clock := (sample .start (100 * 32768)).clock

/-- **The time is set back to 50 seconds** when 100 have gone by. -/
theorem not_agree : ¬ Agree (50#64 <<< 32) 0#8 hundredSeconds [] := fun h =>
  absurd (h.converts (by decide)) (by decide)

end Time

end AntTracer
