import AntTracer.App.Packets

/-!
# Packet intervals

With each packet `TraceSuperLoop` prints the time since the packet before. It
scales both time stamps to microseconds and subtracts then, so a wrap of the
cycle counter between two packets is taken off the scaled values, where it is
no wrap any more. `intervals_iff` says that the interval printed is right just
when the counter does not wrap between the two.
-/

namespace AntTracer

namespace App

/-! ## What is printed -/

/-- The elapsed time printed for `q` is within a microsecond of the cycles
since `p`. -/
def TrueInterval (p q : Packet) (l : Line) : Prop :=
  |(l.elapsed.toNat : ℚ) - ((q.time - p.time).toNat : ℚ) / 64| ≤ 1

/-- The interval from packet `i` to the next one, if there is one, is printed
as it is. -/
def Measured (s : Tracer) (i : ℕ) : Prop := ∀ p q l, s.printed[i]? = some p →
  s.printed[i + 1]? = some q → s.lines[i + 1]? = some l → TrueInterval p q l

/-- The counter does not wrap between packet `i` and the next one. -/
def InOrder (s : Tracer) (i : ℕ) : Prop := ∀ p q, s.printed[i]? = some p →
  s.printed[i + 1]? = some q → p.time ≤ q.time

/-! ## One interval -/

theorem toNat_tachy2us (t : Word) : (tachy2us t).toNat = t.toNat / 64 := by
  have hunit : (tachyUnit + 999999#32) / 1000000#32 = 64#32 := by decide
  rw [tachy2us, hunit, BitVec.toNat_udiv]
  rfl

/-- An error of a microsecond, in cycles. -/
theorem abs_sub_div_le {e d : ℕ} :
    |(e : ℚ) - (d : ℚ) / 64| ≤ 1 ↔ d ≤ 64 * e + 64 ∧ 64 * e ≤ d + 64 := by
  rw [abs_le]
  constructor
  · rintro ⟨h₁, h₂⟩
    have h₃ : (d : ℚ) ≤ 64 * e + 64 := by linarith
    have h₄ : (64 : ℚ) * e ≤ d + 64 := by linarith
    exact ⟨by exact_mod_cast h₃, by exact_mod_cast h₄⟩
  · rintro ⟨h₁, h₂⟩
    have h₃ : (d : ℚ) ≤ 64 * e + 64 := by exact_mod_cast h₁
    have h₄ : (64 : ℚ) * e ≤ d + 64 := by exact_mod_cast h₂
    constructor <;> linarith

/-- **One interval** is right just when the later stamp is the greater one. -/
theorem trueInterval_iff {p q : Packet} :
    TrueInterval p q (q.line (tachy2us p.time)) ↔ p.time ≤ q.time := by
  have hp := p.time.isLt
  have hq := q.time.isLt
  have helapsed : (q.line (tachy2us p.time)).elapsed.toNat =
      (2 ^ 32 - p.time.toNat / 64 + q.time.toNat / 64) % 2 ^ 32 := by
    rw [Packet.line, BitVec.toNat_sub, toNat_tachy2us, toNat_tachy2us]
  have hcycles : (q.time - p.time).toNat = (2 ^ 32 - p.time.toNat + q.time.toNat) % 2 ^ 32 :=
    BitVec.toNat_sub _ _
  rw [TrueInterval, abs_sub_div_le, helapsed, hcycles, BitVec.le_def]
  by_cases hle : p.time.toNat ≤ q.time.toNat
  · have h₁ : (2 ^ 32 - p.time.toNat / 64 + q.time.toNat / 64) % 2 ^ 32 =
        q.time.toNat / 64 - p.time.toNat / 64 := by omega
    have h₂ : (2 ^ 32 - p.time.toNat + q.time.toNat) % 2 ^ 32 =
        q.time.toNat - p.time.toNat := by omega
    rw [h₁, h₂]
    refine ⟨fun _ => hle, fun _ => ⟨by omega, by omega⟩⟩
  · -- the scaled stamps are less than a sixty-fourth of a wrap apart
    refine ⟨fun ⟨h₁, h₂⟩ => ?_, fun h => absurd h hle⟩
    omega

/-! ## Runs -/

theorem getElem?_linesFrom {i : ℕ} {p q : Packet} : ∀ {t : Word} {ps : List Packet},
    ps[i]? = some p → ps[i + 1]? = some q →
    (linesFrom t ps)[i + 1]? = some (q.line (tachy2us p.time)) := by
  induction i with
  | zero =>
    intro t ps hp hq
    obtain _ | ⟨p', _ | ⟨q', ps⟩⟩ := ps
    · cases hp
    · cases hq
    · obtain rfl := Option.some.inj hp
      obtain rfl := Option.some.inj hq
      rfl
  | succ i ih =>
    intro t ps hp hq
    cases ps with
    | nil => cases hp
    | cons p' ps => exact ih hp hq

/-- The lines are those of the packets printed. -/
structure Printed (s : Tracer) : Prop where
  /-- the time printed last -/
  last : s.lastTime = (s.printed.getLast?.map fun p => tachy2us p.time).getD 0#32
  lines : s.lines = linesFrom 0#32 s.printed

theorem Printed.step {s : Tracer} (h : Printed s) (e : Event) : Printed (step s e) := by
  have hsame : ∀ s' : Tracer, s'.lastTime = s.lastTime → s'.printed = s.printed →
      s'.lines = s.lines → Printed s' := fun s' h₁ h₂ h₃ =>
    ⟨by rw [h₁, h₂]; exact h.last, by rw [h₂, h₃]; exact h.lines⟩
  cases e with
  | dma i b => exact hsame _ rfl rfl rfl
  | interrupt crcOk time rssi =>
    rw [App.step, radioInterrupt]
    split <;> exact hsame _ rfl rfl rfl
  | loop =>
    rw [App.step, traceSuperLoop]
    split
    · split <;> exact hsame _ rfl rfl rfl
    · exact hsame _ rfl rfl rfl
    · exact hsame _ rfl rfl rfl
    · split
      · exact hsame _ rfl rfl rfl
      · refine ⟨by simp, ?_⟩
        dsimp only
        rw [linesFrom_append, ← h.lines, ← h.last]

/-- **The intervals printed are right just where the counter does not wrap
between two packets**, in every run. -/
theorem intervals_iff (es : List Event) (i : ℕ) :
    Measured (Runs.run step .boot es) i ↔ InOrder (Runs.run step .boot es) i := by
  have hprinted : Printed (Runs.run step .boot es) :=
    Runs.inv_run (fun _ e hs => hs.step e) (⟨rfl, rfl⟩ : Printed .boot) es
  constructor
  · intro h p q hp hq
    refine trueInterval_iff.1 (h p q _ hp hq ?_)
    rw [hprinted.lines]
    exact getElem?_linesFrom hp hq
  · intro h p q l hp hq hl
    rw [hprinted.lines, getElem?_linesFrom hp hq] at hl
    obtain rfl := Option.some.inj hl
    exact trueInterval_iff.2 (h p q hp hq)

/-- A packet comes and is printed. -/
def onePacket (time : Word) : List Event :=
  .interrupt true time 0#32 :: List.replicate (packetReads + 4) .loop

/-- **The counter wraps between two packets**, which are a millisecond
apart. -/
theorem not_measured :
    ¬ Measured (Runs.run step .boot (onePacket 0xffff0000#32 ++ onePacket 0#32)) 0 := by
  intro h
  exact absurd (trueInterval_iff.1 (h _ _ _ rfl rfl rfl)) (by decide)

end App

end AntTracer
