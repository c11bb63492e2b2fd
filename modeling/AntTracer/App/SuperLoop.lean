import AntTracer.App.Packets

/-!
# The super loop and its sleep

`Main` adds up what its state machines say they did, and sleeps when that is
nothing. `TraceSuperLoop` takes one packet off the ring in a call, and says
it did nothing in any case. So the loop may go to sleep on packets that came
with the one just printed, or while it was printed; `sleeps_on_nothing` has
the passes in which it does not.
-/

namespace AntTracer

namespace App

/-! ## The program -/

/-- Where `Main` is. -/
inductive Phase
  /-- at the test of `work` -/
  | top
  /-- in `sd_app_evt_wait` -/
  | wait
  /-- at `handleSocEvents` -/
  | socEvents
  /-- at `StoreSuperLoop` -/
  | store
  /-- in `TraceSuperLoop` -/
  | trace
  deriving DecidableEq

/-- `Main` and the ring. -/
structure SuperLoop where
  tracer : Tracer
  phase : Phase
  work : ℕ
  /-- history: `packetCnt` when `TraceSuperLoop` returned -/
  left : ℕ
  /-- history: the packets accepted by then -/
  seen : ℕ

/-- At the head of the loop. -/
def SuperLoop.start : SuperLoop := ⟨.boot, .top, 1, 0, 0⟩

/-- `TraceSuperLoop` returns with this step: there is no packet, or it is
printed. -/
def Tracer.returns (t : Tracer) : Bool :=
  match t.loop with
  | .test => decide (t.packetCnt = 0)
  | .take | .slot => false
  | .read _ k _ => decide (packetReads ≤ k)

/-- What `TraceSuperLoop` returns. -/
abbrev traceWork : ℕ := 0

/-- A step of `Main`; `done` is what the state machine called returns. -/
def mainGo (done : ℕ) (s : SuperLoop) : SuperLoop :=
  match s.phase with
  | .top => if s.work = 0 then { s with phase := .wait } else
    { s with phase := .socEvents, work := 0 }
  | .wait => { s with phase := .socEvents, work := 0 }
  | .socEvents => { s with phase := .store, work := s.work + done }
  | .store => { s with phase := .trace, work := s.work + done }
  | .trace =>
    let t := traceSuperLoop s.tracer
    if s.tracer.returns = true then
      { tracer := t
        phase := .top
        work := s.work + traceWork
        left := t.packetCnt
        seen := t.accepted.length }
    else { s with tracer := t }

/-- What can happen next. -/
inductive LoopEvent
  /-- the radio writes a byte of a payload -/
  | dma (i : Fin 13) (b : Byte)
  /-- a payload is complete -/
  | interrupt (crcOk : Bool) (time rssi : Word)
  /-- `Main` goes on -/
  | go (done : ℕ)

/-- One step of `Main` and the radio. -/
def superLoopStep (s : SuperLoop) : LoopEvent → SuperLoop
  | .dma i b => { s with tracer := dma i b s.tracer }
  | .interrupt crcOk time rssi => { s with tracer := radioInterrupt crcOk time rssi s.tracer }
  | .go done => mainGo done s

/-! ## Sleeping -/

/-- **`Main` sleeps on no packet**: `TraceSuperLoop` left none, and those in
the ring were accepted after it returned. -/
def SleepsOnNothing (s : SuperLoop) : Prop :=
  s.phase = .wait → s.left = 0 ∧ s.tracer.accepted.length = s.seen + s.tracer.packetCnt

/-- In a pass in which no other state machine did anything, there is one
packet at most when `TraceSuperLoop` looks, and none with a good CRC comes
while it prints that. -/
def OneAtATime (s : SuperLoop) : LoopEvent → Prop
  | .dma _ _ => True
  | .interrupt crcOk _ _ => s.phase = .trace → s.work = 0 → s.tracer.loop ≠ .test → crcOk = false
  | .go _ => s.phase = .trace → s.work = 0 → s.tracer.loop = .test → s.tracer.packetCnt ≤ 1

instance (s : SuperLoop) : Decidable (SleepsOnNothing s) :=
  inferInstanceAs (Decidable (s.phase = .wait → s.left = 0 ∧ _))

instance (l : Loop) : Decidable (l = .test) :=
  match l with
  | .test => .isTrue rfl
  | .take | .slot | .read _ _ _ => .isFalse nofun

instance (s : SuperLoop) (e : LoopEvent) : Decidable (OneAtATime s e) :=
  match e with
  | .dma _ _ => .isTrue trivial
  | .interrupt crcOk _ _ => inferInstanceAs
      (Decidable (s.phase = .trace → s.work = 0 → s.tracer.loop ≠ .test → crcOk = false))
  | .go _ => inferInstanceAs
      (Decidable (s.phase = .trace → s.work = 0 → s.tracer.loop = .test → s.tracer.packetCnt ≤ 1))

/-- What is left in the ring when `TraceSuperLoop` returns, if no packet
comes. -/
def Tracer.rest (t : Tracer) : ℕ :=
  match t.loop with
  | .test | .take => t.packetCnt - 1
  | .slot | .read _ _ _ => t.packetCnt

/-- What holds between two steps. -/
structure Awake (s : SuperLoop) : Prop where
  /-- outside `TraceSuperLoop` -/
  test : s.phase ≠ .trace → s.tracer.loop = .test
  /-- inside it, in a pass in which nothing was done -/
  rest : s.phase = .trace → s.work = 0 → s.tracer.loop ≠ .test → s.tracer.rest = 0
  /-- past its test there is a packet -/
  take : s.tracer.loop = .take → 0 < s.tracer.packetCnt
  /-- after it -/
  top : s.phase = .top → s.work = 0 → s.left = 0
  wait : s.phase = .wait → s.left = 0
  since : s.phase = .top ∨ s.phase = .wait →
    s.tracer.accepted.length + s.left = s.seen + s.tracer.packetCnt

theorem Awake.start : Awake .start := ⟨fun _ => rfl, nofun, nofun, nofun, nofun, fun _ => rfl⟩

theorem Awake.sleepsOnNothing {s : SuperLoop} (h : Awake s) : SleepsOnNothing s := by
  intro hw
  have hleft := h.wait hw
  have hsince := h.since (Or.inr hw)
  exact ⟨hleft, by omega⟩

/-- An interrupt leaves the loop where it is, and counts what it accepts. -/
theorem radioInterrupt_counts (crcOk : Bool) (time rssi : Word) (t : Tracer) :
    (radioInterrupt crcOk time rssi t).loop = t.loop ∧ ∃ n,
      (radioInterrupt crcOk time rssi t).packetCnt = t.packetCnt + n ∧
      (radioInterrupt crcOk time rssi t).accepted.length = t.accepted.length + n ∧
      (crcOk = false → n = 0) ∧ (crcOk = true → t.packetCnt < packetSlots - 1 → n = 1) := by
  rw [radioInterrupt]
  split
  · rename_i h
    exact ⟨rfl, 1, rfl, by simp [acceptPacket, storeStatus], fun hc => by simp [hc] at h,
      fun _ _ => rfl⟩
  · rename_i h
    refine ⟨rfl, 0, rfl, rfl, fun _ => rfl, fun hc hlt => absurd ⟨hc, hlt⟩ h⟩

/-- What a step of `TraceSuperLoop` does to the count. -/
theorem traceSuperLoop_rest (t : Tracer) :
    ((traceSuperLoop t).loop ≠ .test → (traceSuperLoop t).rest = t.rest) ∧
      (t.returns = true → (traceSuperLoop t).loop = .test ∧ (traceSuperLoop t).packetCnt = t.rest) ∧
      ((traceSuperLoop t).loop = .take → 0 < (traceSuperLoop t).packetCnt) := by
  unfold traceSuperLoop Tracer.returns Tracer.rest
  cases hl : t.loop with
  | test =>
    by_cases hcnt : 0 < t.packetCnt
    · simp only [if_pos hcnt]
      exact ⟨fun _ => trivial, fun h => absurd (of_decide_eq_true h) hcnt.ne', fun _ => hcnt⟩
    · simp only [if_neg hcnt, hl]
      exact ⟨fun h => absurd rfl h, fun _ => ⟨trivial, by omega⟩, nofun⟩
  | take => exact ⟨fun _ => rfl, nofun, nofun⟩
  | slot => exact ⟨fun _ => rfl, nofun, nofun⟩
  | read pkt k got =>
    by_cases hk : k < packetReads
    · simp only [if_pos hk]
      exact ⟨fun _ => trivial, fun h => absurd (of_decide_eq_true h) (by omega), nofun⟩
    · simp only [if_neg hk]
      exact ⟨fun h => absurd rfl h, fun _ => ⟨trivial, trivial⟩, nofun⟩

theorem Tracer.rest_congr {t t' : Tracer} (hl : t'.loop = t.loop)
    (hc : t'.packetCnt = t.packetCnt) :
    t'.rest = t.rest := by
  rw [Tracer.rest, Tracer.rest, hl, hc]

/-- **A step that meets the condition** keeps all that. -/
theorem Awake.step {s : SuperLoop} (h : Awake s) {e : LoopEvent} (he : OneAtATime s e) :
    Awake (superLoopStep s e) := by
  cases e with
  | dma i b => exact ⟨h.test, h.rest, h.take, h.top, h.wait, h.since⟩
  | interrupt crcOk time rssi =>
    obtain ⟨hloop, n, hcnt, hacc, hbad, -⟩ := radioInterrupt_counts crcOk time rssi s.tracer
    refine ⟨fun hp => hloop.trans (h.test hp), fun hp hw hl => ?_, fun hl => ?_, h.top, h.wait,
      fun hp => ?_⟩
    · have hl' : s.tracer.loop ≠ .test := fun hc => hl (hloop.trans hc)
      have hn := hbad (he hp hw hl')
      exact (Tracer.rest_congr hloop (by rw [hcnt, hn, Nat.add_zero])).trans (h.rest hp hw hl')
    · have := h.take (hloop.symm.trans hl)
      exact hcnt ▸ Nat.lt_add_right n this
    · have := h.since hp
      change (radioInterrupt crcOk time rssi s.tracer).accepted.length + s.left =
        s.seen + (radioInterrupt crcOk time rssi s.tracer).packetCnt
      omega
  | go done =>
    rw [superLoopStep, mainGo]
    cases hp : s.phase with
    | top =>
      have htest := h.test (by rw [hp]; decide)
      have hsince := h.since (Or.inl hp)
      dsimp only
      by_cases hw : s.work = 0
      · rw [if_pos hw]
        exact ⟨fun _ => htest, nofun, h.take, nofun, fun _ => h.top hp hw, fun _ => hsince⟩
      · rw [if_neg hw]
        exact ⟨fun _ => htest, nofun, h.take, nofun, nofun, by simp⟩
    | wait =>
      have htest := h.test (by rw [hp]; decide)
      exact ⟨fun _ => htest, nofun, h.take, nofun, nofun, by simp⟩
    | socEvents =>
      have htest := h.test (by rw [hp]; decide)
      exact ⟨fun _ => htest, nofun, h.take, nofun, nofun, by simp⟩
    | store =>
      have htest := h.test (by rw [hp]; decide)
      exact ⟨fun _ => htest, fun _ _ hl => absurd htest hl, h.take, nofun, nofun, by simp⟩
    | trace =>
      obtain ⟨hrest, hret, htake⟩ := traceSuperLoop_rest s.tracer
      -- with nothing else done, nothing is left
      have hzero : s.work = 0 → s.tracer.rest = 0 := by
        intro hw
        by_cases hl : s.tracer.loop = .test
        · have := he hp hw hl
          rw [Tracer.rest, hl]
          exact Nat.sub_eq_zero_of_le this
        · exact h.rest hp hw hl
      dsimp only
      by_cases hr : s.tracer.returns = true
      · obtain ⟨hloop, hcnt⟩ := hret hr
        rw [if_pos hr]
        exact ⟨fun _ => hloop, nofun, htake, fun _ hw => hcnt.trans (hzero hw), nofun,
          fun _ => rfl⟩
      · rw [if_neg hr]
        exact ⟨fun hc => absurd rfl hc, fun _ hw hl => (hrest hl).trans (hzero hw), htake, nofun,
          nofun, by simp⟩

/-! ## The pass that goes wrong -/

/-- Left alone, `TraceSuperLoop` returns; what is in the ring then is left. -/
theorem run_returns {m : ℕ} : ∀ {t : Tracer} {left seen pkt k : ℕ} {got : Packet},
    t.loop = .read pkt k got → packetReads - k = m → ∃ n,
      (Runs.run superLoopStep ⟨t, .trace, 0, left, seen⟩ (List.replicate n (.go 0))).phase = .wait ∧
      (Runs.run superLoopStep ⟨t, .trace, 0, left, seen⟩ (List.replicate n (.go 0))).left =
        t.packetCnt := by
  induction m with
  | zero =>
    intro t left seen pkt k got hl hk
    refine ⟨2, ?_⟩
    have hret : t.returns = true := by
      rw [Tracer.returns, hl]
      exact decide_eq_true (by omega)
    have hgo : superLoopStep ⟨t, .trace, 0, left, seen⟩ (.go 0) =
        ⟨traceSuperLoop t, .top, 0, (traceSuperLoop t).packetCnt,
          (traceSuperLoop t).accepted.length⟩ :=
      if_pos hret
    have hcnt : (traceSuperLoop t).packetCnt = t.packetCnt := by
      rw [traceSuperLoop, hl]
      dsimp only
      rw [if_neg (by omega)]
    simp only [List.replicate, Runs.run_cons, Runs.run_nil, hgo]
    exact ⟨rfl, hcnt⟩
  | succ m ih =>
    intro t left seen pkt k got hl hk
    have hret : ¬ t.returns = true := by
      rw [Tracer.returns, hl]
      simp only [decide_eq_true_eq]
      omega
    have hgo : superLoopStep ⟨t, .trace, 0, left, seen⟩ (.go 0) =
        ⟨traceSuperLoop t, .trace, 0, left, seen⟩ := if_neg hret
    have hread : traceSuperLoop t =
        { t with loop := .read pkt (k + 1) (readField k (t.packets pkt) got) } := by
      rw [traceSuperLoop, hl]
      exact if_pos (by omega)
    obtain ⟨n, hn⟩ := @ih (traceSuperLoop t) left seen _ _ _ (by rw [hread])
      (by omega : packetReads - (k + 1) = m)
    refine ⟨n + 1, ?_⟩
    simp only [List.replicate_succ, Runs.run_cons, hgo]
    rw [hread] at hn ⊢
    exact hn

theorem run_rest {t : Tracer} {left seen : ℕ} (h : t.loop = .test → 0 < t.packetCnt) : ∃ n,
    (Runs.run superLoopStep ⟨t, .trace, 0, left, seen⟩ (List.replicate n (.go 0))).phase = .wait ∧
    (Runs.run superLoopStep ⟨t, .trace, 0, left, seen⟩ (List.replicate n (.go 0))).left =
    t.rest := by
  have hslot : ∀ t : Tracer, t.loop = .slot → ∃ n,
      (Runs.run superLoopStep ⟨t, .trace, 0, left, seen⟩ (List.replicate n (.go 0))).phase = .wait ∧
      (Runs.run superLoopStep ⟨t, .trace, 0, left, seen⟩ (List.replicate n (.go 0))).left =
        t.packetCnt := by
    intro t hl
    obtain ⟨n, hn⟩ := @run_returns _ { t with
      packetRd := nextSlot t.packetRd, loop := .read t.packetRd 0 .zero } left seen _ _ _ rfl rfl
    refine ⟨n + 1, ?_⟩
    rw [List.replicate_succ, Runs.run_cons]
    simpa only [superLoopStep, mainGo, Tracer.returns, traceSuperLoop, hl, Bool.false_eq_true,
      if_false] using hn
  have htake : ∀ t : Tracer, t.loop = .take → ∃ n,
      (Runs.run superLoopStep ⟨t, .trace, 0, left, seen⟩ (List.replicate n (.go 0))).phase = .wait ∧
      (Runs.run superLoopStep ⟨t, .trace, 0, left, seen⟩ (List.replicate n (.go 0))).left =
        t.packetCnt - 1 := by
    intro t hl
    obtain ⟨n, hn⟩ := hslot { t with packetCnt := t.packetCnt - 1, loop := .slot } rfl
    refine ⟨n + 1, ?_⟩
    rw [List.replicate_succ, Runs.run_cons]
    simpa only [superLoopStep, mainGo, Tracer.returns, traceSuperLoop, hl, Bool.false_eq_true,
      if_false] using hn
  rw [Tracer.rest]
  cases hl : t.loop with
  | test =>
    have hcnt := h hl
    obtain ⟨n, hn⟩ := htake { t with loop := .take } rfl
    refine ⟨n + 1, ?_⟩
    rw [List.replicate_succ, Runs.run_cons]
    simpa [superLoopStep, mainGo, Tracer.returns, traceSuperLoop, hl, hcnt, hcnt.ne'] using hn
  | take => exact htake t hl
  | slot => exact hslot t hl
  | read pkt k got => exact run_returns hl rfl

/-- **The step that goes wrong.** Left alone from there on, the loop sleeps
on what the step left in the ring. -/
theorem sleeps_on_packets {s : SuperLoop} (h : Awake s) {e : LoopEvent} (he : ¬ OneAtATime s e) :
    ∃ n, ¬ SleepsOnNothing (Runs.run superLoopStep (superLoopStep s e)
      (List.replicate n (.go 0))) := by
  -- it is enough that the step leaves packets
  have hrest : ∀ t : Tracer, (t.loop = .test → 0 < t.packetCnt) → t.rest ≠ 0 →
      superLoopStep s e = ⟨t, .trace, 0, s.left, s.seen⟩ → ∃ n,
      ¬ SleepsOnNothing (Runs.run superLoopStep (superLoopStep s e)
        (List.replicate n (.go 0))) := by
    intro t htest hne heq
    obtain ⟨n, hphase, hleft⟩ := @run_rest t s.left s.seen htest
    exact ⟨n, fun hs => hne (hleft ▸ (heq ▸ hs (heq ▸ hphase)).1)⟩
  cases e with
  | dma i b => exact absurd trivial he
  | interrupt crcOk time rssi =>
    simp only [OneAtATime, Classical.not_imp, Bool.not_eq_false] at he
    obtain ⟨hp, hw, hl, hcrc⟩ := he
    have h₀ := h.rest hp hw hl
    have htake := h.take
    obtain ⟨hloop, n, hcnt, -, -, hone⟩ := radioInterrupt_counts crcOk time rssi s.tracer
    have hcases : (s.tracer.loop = .take ∧ s.tracer.packetCnt = 1) ∨
        (s.tracer.loop ≠ .take ∧ s.tracer.packetCnt = 0) := by
      rw [Tracer.rest] at h₀
      cases hl' : s.tracer.loop with
      | test => exact absurd hl' hl
      | take =>
        rw [hl'] at h₀
        have := htake hl'
        exact Or.inl ⟨rfl, by simp only at h₀; omega⟩
      | slot => rw [hl'] at h₀; exact Or.inr ⟨nofun, h₀⟩
      | read pkt k got => rw [hl'] at h₀; exact Or.inr ⟨nofun, h₀⟩
    have hn : n = 1 := hone hcrc (by simp only [packetSlots]; omega)
    refine hrest (radioInterrupt crcOk time rssi s.tracer)
      (fun hc => absurd (hloop.symm.trans hc) hl)
      ?_ (by rw [superLoopStep, ← hp, ← hw])
    rw [Tracer.rest, hloop, hcnt, hn]
    rcases hcases with ⟨ht, hc⟩ | ⟨ht, hc⟩
    · rw [ht, hc]
      decide
    · rw [hc]
      cases hl' : s.tracer.loop with
      | test => exact absurd hl' hl
      | take => exact absurd hl' ht
      | slot => exact nofun
      | read pkt k got => exact nofun
  | go done =>
    simp only [OneAtATime, Classical.not_imp, Nat.not_le] at he
    obtain ⟨hp, hw, hl, hcnt⟩ := he
    refine hrest { s.tracer with loop := .take } nofun (by simp only [Tracer.rest]; omega) ?_
    have hret : ¬ s.tracer.returns = true := by
      simp only [Tracer.returns, hl, decide_eq_true_eq]
      omega
    have htrace : traceSuperLoop s.tracer = { s.tracer with loop := .take } := by
      rw [traceSuperLoop, hl]
      exact if_pos (by omega)
    simp only [superLoopStep, mainGo, hp, hw, if_neg hret, htrace]

/-! ## Runs -/

/-- **`Main` sleeps on nothing just when packets come one at a time**: in
every run in which, in each pass in which no other state machine did
anything, there is one packet at most when `TraceSuperLoop` looks and none
comes while it prints that. Any other run it ends asleep on a packet, if no
more packets come. -/
theorem sleeps_on_nothing (es : List LoopEvent)
    (hes : Runs.Each superLoopStep OneAtATime .start es) :
    Runs.Throughout superLoopStep SleepsOnNothing .start es ∧
      ∀ e, ¬ OneAtATime (Runs.run superLoopStep .start es) e → ∃ n,
        ¬ SleepsOnNothing (Runs.run superLoopStep .start
          (es ++ e :: List.replicate n (.go 0))) := by
  have hstep : ∀ s e, Awake s → OneAtATime s e →
    Awake (superLoopStep s e) := fun _ _ h he => h.step he
  refine ⟨(Runs.throughout_of_each hstep Awake.start hes).mono fun _ h => h.sleepsOnNothing,
    fun e he => ?_⟩
  obtain ⟨n, hn⟩ := sleeps_on_packets (Runs.inv_of_each hstep Awake.start hes) he
  exact ⟨n, by rwa [Runs.run_append]⟩

/-- A packet of a pass. -/
abbrev packet : LoopEvent := .interrupt true 0#32 0#32

/-- One packet, and the pass that prints it. -/
theorem sleeps_on_nothing_packet : Runs.Throughout superLoopStep SleepsOnNothing .start
    (packet :: List.replicate 24 (.go 0)) :=
  (sleeps_on_nothing _ (by decide)).1

/-- **Two packets in a row**: the loop prints the first, and goes to sleep on
the second. -/
theorem sleeps_on_second :
    ¬ Runs.Throughout superLoopStep SleepsOnNothing .start
      (packet :: packet :: List.replicate 24 (.go 0)) := by
  decide

end App

end AntTracer
