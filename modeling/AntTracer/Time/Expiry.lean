import Mathlib.Logic.Relation
import AntTracer.Time.Callouts

/-!
# The timers that expire

One call of `TempusMagnaCirculi` takes the expired timers off the list one by
one, and each callback may put timers on the list, move them or take them off.
If it puts none on the list that is due already, the timers that are due get
fewer with every round, so the loop ends. `expires` says which timers it
triggers, in which order, and what that makes of the state.
-/

namespace AntTracer

namespace Time

open Tempus (tempusMagnaCirculi)

variable {ι φ π ω : Type} [DecidableEq ι]

/-! ## What is claimed -/

/-- **A timer is triggered**: it is off the list, and its callback has run and
the calls it makes have been carried out, or else its flag is set. -/
inductive Triggered (P : Callbacks ι φ π ω) (tp : ι) (s : Tempus ι φ π ω) :
    List (Call ι φ π) → Tempus ι φ π ω → Prop
  | callback {func : φ} {s' : Tempus ι φ π ω} (hfunc : s.func tp = some func)
    (hcalls : applyCalls (P.callback func tp (takeOff tp s)).1
      { takeOff tp s with world := (P.callback func tp (takeOff tp s)).2 } = some s') :
    Triggered P tp s (P.callback func tp (takeOff tp s)).1 s'
  | flag (hfunc : s.func tp = none) :
    Triggered P tp s [] { takeOff tp s with world := P.setVar (s.data tp 0) s.world }

/-- **Timers are triggered one after the other**, each once, and nothing else
happens. -/
inductive TriggeredInTurn (P : Callbacks ι φ π ω) :
    List (ι × List (Call ι φ π)) → Tempus ι φ π ω → Tempus ι φ π ω → Prop
  | nil (s : Tempus ι φ π ω) : TriggeredInTurn P [] s s
  | cons {tp : ι} {cs : List (Call ι φ π)} {fired : List (ι × List (Call ι φ π))}
    {s s₁ s' : Tempus ι φ π ω} (h : Triggered P tp s cs s₁)
    (hrest : TriggeredInTurn P fired s₁ s') :
    TriggeredInTurn P ((tp, cs) :: fired) s s'

/-- One round of the loop. -/
def MagnaStep (P : Callbacks ι φ π ω) (tod : Word) (s s' : Tempus ι φ π ω) : Prop :=
  ∃ tp, due tod s = some tp ∧ magnaRound P tp s = some s'

/-- The calls of the callback that is run in the next round are about the
future, or cancel a timer. -/
def CallsAhead (P : Callbacks ι φ π ω) (tod : Word) (s : Tempus ι φ π ω) : Prop :=
  ∀ tp func, due tod s = some tp → s.func tp = some func →
    ∀ c ∈ (P.callback func tp (takeOff tp s)).1, c.tod = 0#32 ∨ tod < c.tod

/-- And so are those of all callbacks that one call of `TempusMagnaCirculi`
runs. -/
def SchedulesAhead (P : Callbacks ι φ π ω) (tod : Word) (s : Tempus ι φ π ω) : Prop :=
  ∀ s', Relation.ReflTransGen (MagnaStep P tod) s s' → CallsAhead P tod s'

/-- What is triggered at the time `tod`, after a history of calls: the timers
in order, each with the calls its callback makes. -/
structure Expires (hist : List (Event ι)) (tod : Word) (fired : List (ι × List (Call ι φ π))) :
    Prop where
  /-- in order of time, and first scheduled first; so each of them once -/
  sorted : (fired.map Prod.fst).Pairwise (Before hist)
  /-- those that are on the list and due, unless an earlier callback is about
  them -/
  mem_iff : ∀ i, i ∈ fired.map Prod.fst ↔
    Listed hist i ∧ lastTime hist i ≤ tod ∧
      ∀ e ∈ fired, Before hist e.1 i → ∀ c ∈ e.2, c.tmr ≠ i

/-- No timer is triggered twice. -/
theorem Expires.nodup {hist : List (Event ι)} {tod : Word} {fired : List (ι × List (Call ι φ π))}
    (h : Expires hist tod fired) : (fired.map Prod.fst).Nodup :=
  h.sorted.imp fun hij => by rintro rfl; exact hij.irrefl

/-! ## What a round does to the history -/

/-- The history with some calls. -/
def noteCalls : List (Call ι φ π) → List (Event ι) → List (Event ι)
  | [], hist => hist
  | c :: cs, hist => noteCalls cs (c.event :: hist)

section History

variable {cs : List (Call ι φ π)} {hist : List (Event ι)} {i j tp : ι} {tod : Word}

/-- A timer no call is about. -/
theorem noteCalls_other (hist : List (Event ι)) (hi : ∀ c ∈ cs, c.tmr ≠ i) :
    (Listed (noteCalls cs hist) i ↔ Listed hist i) ∧
      lastTime (noteCalls cs hist) i = lastTime hist i ∧
      lastCall (noteCalls cs hist) i = lastCall hist i := by
  induction cs generalizing hist with
  | nil => exact ⟨Iff.rfl, rfl, rfl⟩
  | cons c cs ih =>
    have hc : i ≠ c.tmr := (hi c List.mem_cons_self).symm
    have h := ih (c.event :: hist) fun c' hc' => hi c' (List.mem_cons_of_mem c hc')
    simpa only [noteCalls, Call.event, Listed, lastTime, lastCall, if_neg hc] using h

/-- A timer that is called is not due after calls that are ahead. -/
theorem noteCalls_ahead (hist : List (Event ι)) (hahead : ∀ c ∈ cs, c.tod = 0#32 ∨ tod < c.tod)
    (hi : ∃ c ∈ cs, c.tmr = i) :
    lastTime (noteCalls cs hist) i = 0#32 ∨ tod < lastTime (noteCalls cs hist) i := by
  induction cs generalizing hist with
  | nil => exact absurd hi (by simp)
  | cons c cs ih =>
    by_cases hlater : ∃ c' ∈ cs, c'.tmr = i
    · exact ih _ (fun c' hc' => hahead c' (List.mem_cons_of_mem c hc')) hlater
    · -- the first call is the last one about it
      push Not at hlater
      obtain ⟨c', hc', rfl⟩ := hi
      obtain rfl : c' = c := by
        rcases List.mem_cons.1 hc' with h | h
        · exact h
        · exact absurd rfl (hlater c' h)
      rw [noteCalls, (noteCalls_other _ hlater).2.1, Call.event, lastTime, if_pos rfl]
      exact hahead c' List.mem_cons_self

/-- **What a round leaves due**: what was due, but for the timer taken off and
those its callback is about. -/
theorem due_noteCalls (hist : List (Event ι)) (tp i : ι)
    (hahead : ∀ c ∈ cs, c.tod = 0#32 ∨ tod < c.tod) :
    (Listed (noteCalls cs (.takenOff tp :: hist)) i ∧
        lastTime (noteCalls cs (.takenOff tp :: hist)) i ≤ tod) ↔
      (∀ c ∈ cs, c.tmr ≠ i) ∧ i ≠ tp ∧ Listed hist i ∧ lastTime hist i ≤ tod := by
  by_cases hi : ∃ c ∈ cs, c.tmr = i
  · -- what a call is about is off the list, or due later
    refine iff_of_false (fun h => ?_) fun h => ?_
    · rcases noteCalls_ahead (.takenOff tp :: hist) hahead hi with h0 | hlt
      · exact lastTime_ne_zero h.1 h0
      · exact absurd h.2 (BitVec.not_le.2 hlt)
    · obtain ⟨c, hc, rfl⟩ := hi
      exact h.1 c hc rfl
  · push Not at hi
    obtain ⟨h₁, h₂, -⟩ := noteCalls_other (.takenOff tp :: hist) hi
    rw [h₁, h₂, Listed, lastTime, and_iff_right hi, and_assoc]

/-- Timers that stay due stay in order. -/
theorem before_noteCalls (hi : ∀ c ∈ cs, c.tmr ≠ i) (hj : ∀ c ∈ cs, c.tmr ≠ j) :
    Before (noteCalls cs (.takenOff tp :: hist)) i j ↔ Before hist i j := by
  obtain ⟨-, ht, hc⟩ := noteCalls_other (.takenOff tp :: hist) hi
  obtain ⟨-, ht', hc'⟩ := noteCalls_other (.takenOff tp :: hist) hj
  simp only [Before, ht, hc, ht', hc', lastTime, lastCall]

end History

/-! ## The runs of the loop -/

variable {P : Callbacks ι φ π ω} {s : Tempus ι φ π ω} {hist : List (Event ι)} {tod : Word} {tp : ι}
  {l : List ι}

/-- The calls of a callback are made, one after the other. -/
theorem Reachable.applyCalls {cs : List (Call ι φ π)} :
    ∀ {s : Tempus ι φ π ω} {hist : List (Event ι)}, Reachable P (.callback tod cs) s hist →
    ∃ s', Time.applyCalls cs s = some s' ∧ Reachable P (.loop tod) s' (noteCalls cs hist) := by
  induction cs with
  | nil => exact fun {s hist} h => ⟨s, rfl, h.back⟩
  | cons c cs ih =>
    intro s hist h
    obtain ⟨l, hl⟩ := h.calloutList
    obtain ⟨s', -, hs', -⟩ := hl.apply c
    obtain ⟨s'', hs'', h''⟩ := ih (h.again hs')
    refine ⟨s'', ?_, h''⟩
    rw [Time.applyCalls, hs']
    exact hs''

/-- A round triggers its timer. -/
theorem triggered_magnaRound {s' : Tempus ι φ π ω} (h : Time.magnaRound P tp s = some s') :
    Triggered P tp s (trigger P tp (takeOff tp s)).1 s' := by
  unfold Time.magnaRound trigger at h
  unfold trigger
  have hsame : (takeOff tp s).func tp = s.func tp := rfl
  rw [hsame] at h ⊢
  cases hfunc : s.func tp with
  | none =>
    rw [hfunc] at h
    obtain rfl := Option.some.inj h
    exact .flag hfunc
  | some func =>
    rw [hfunc] at h
    exact .callback hfunc h

theorem CallsAhead.trigger (h : CallsAhead P tod s) (hdue : due tod s = some tp) :
    ∀ c ∈ (Time.trigger P tp (takeOff tp s)).1, c.tod = 0#32 ∨ tod < c.tod := by
  intro c hc
  unfold Time.trigger at hc
  split at hc
  · rename_i func hfunc
    exact h tp func hdue hfunc c hc
  · cases hc

/-- **A round ends**, whatever its callback does. -/
theorem Reachable.magnaRound (h : Reachable P (.loop tod) s hist) (hdue : due tod s = some tp) :
    ∃ s', Time.magnaRound P tp s = some s' ∧
      Reachable P (.loop tod) s'
        (noteCalls (trigger P tp (takeOff tp s)).1 (.takenOff tp :: hist)) :=
  (h.fire hdue).applyCalls

/-- The timers on the list that are due. -/
def dueTimers (hist : List (Event ι)) (tod : Word) (l : List ι) : List ι :=
  l.filter fun i => lastTime hist i ≤ tod

theorem mem_dueTimers (h : CalloutList s hist l) {i : ι} :
    i ∈ dueTimers hist tod l ↔ Listed hist i ∧ lastTime hist i ≤ tod := by
  simp only [dueTimers, List.mem_filter, decide_eq_true_eq, h.mem_iff]

/-- **The measure**: a round whose calls are ahead leaves fewer timers due. -/
theorem dueTimers_lt {s' : Tempus ι φ π ω} {l' : List ι} {cs : List (Call ι φ π)}
    (h : CalloutList s hist l) (htp : Listed hist tp ∧ lastTime hist tp ≤ tod)
    (hahead : ∀ c ∈ cs, c.tod = 0#32 ∨ tod < c.tod)
    (h' : CalloutList s' (noteCalls cs (.takenOff tp :: hist)) l') :
    (dueTimers (noteCalls cs (.takenOff tp :: hist)) tod l').length <
      (dueTimers hist tod l).length := by
  -- none comes in, and the one taken off is not among them any more
  have hleft : ∀ i ∈ dueTimers (noteCalls cs (.takenOff tp :: hist)) tod l',
      i ≠ tp ∧ i ∈ dueTimers hist tod l := by
    intro i hi
    obtain ⟨-, hne, hdue⟩ := (due_noteCalls hist tp i hahead).1 ((mem_dueTimers h').1 hi)
    exact ⟨hne, (mem_dueTimers h).2 hdue⟩
  have hsub : tp :: dueTimers (noteCalls cs (.takenOff tp :: hist)) tod l' ⊆
      dueTimers hist tod l :=
    List.cons_subset.2 ⟨(mem_dueTimers h).2 htp, fun i hi => (hleft i hi).2⟩
  have hnd : (tp :: dueTimers (noteCalls cs (.takenOff tp :: hist)) tod l').Nodup :=
    List.nodup_cons.2 ⟨fun hin => (hleft tp hin).1 rfl, h'.nodup.filter _⟩
  exact (hnd.subperm hsub).length_le

/-- Where no timer is due, none is triggered. -/
theorem Expires.nil (h : CalloutList s hist l) (hdue : due tod s = none) :
    Expires hist tod ([] : List (ι × List (Call ι φ π))) := by
  refine ⟨List.Pairwise.nil, fun i => iff_of_false List.not_mem_nil ?_⟩
  rintro ⟨hi, hle, -⟩
  have hi' := (h.mem_iff i).2 hi
  -- the top entry is the first to expire
  cases l with
  | nil => cases hi'
  | cons tp l =>
    have htp : ¬ lastTime hist tp ≤ tod := by
      intro hle'
      have hsome : due tod s = some tp := (due_eq_some_iff h).2 ⟨rfl, hle'⟩
      rw [hdue] at hsome
      cases hsome
    rcases List.mem_cons.1 hi' with rfl | hi'
    · exact htp hle
    · rcases (List.pairwise_cons.1 h.sorted).1 i hi' with hlt | ⟨heq, -⟩
      · exact htp (BitVec.le_trans (BitVec.le_of_lt hlt) hle)
      · exact htp (heq ▸ hle)

/-- **One round more**: the timer on the top is triggered, and then what is
triggered after its calls. -/
theorem Expires.cons {cs : List (Call ι φ π)} {fired : List (ι × List (Call ι φ π))}
    (h : CalloutList s hist (tp :: l)) (hle : lastTime hist tp ≤ tod)
    (hahead : ∀ c ∈ cs, c.tod = 0#32 ∨ tod < c.tod)
    (hfired : Expires (noteCalls cs (.takenOff tp :: hist)) tod fired) :
    Expires hist tod ((tp, cs) :: fired) := by
  have htp : Listed hist tp := (h.mem_iff tp).1 List.mem_cons_self
  -- what is triggered later was on the list, behind the top entry
  have hlater : ∀ i ∈ fired.map Prod.fst,
      (∀ c ∈ cs, c.tmr ≠ i) ∧ i ≠ tp ∧ Listed hist i ∧ lastTime hist i ≤ tod := by
    intro i hi
    obtain ⟨h₁, h₂, -⟩ := (hfired.mem_iff i).1 hi
    exact (due_noteCalls hist tp i hahead).1 ⟨h₁, h₂⟩
  have hbehind : ∀ i, i ≠ tp → Listed hist i → Before hist tp i := fun i hne hi =>
    (List.pairwise_cons.1 h.sorted).1 i
      ((List.mem_cons.1 ((h.mem_iff i).2 hi)).resolve_left hne)
  refine ⟨List.pairwise_cons.2 ⟨fun i hi => ?_, ?_⟩, fun i => ?_⟩
  · obtain ⟨-, hne, hi, -⟩ := hlater i hi
    exact hbehind i hne hi
  · exact hfired.sorted.imp_of_mem fun hi hj hij =>
      (before_noteCalls (hlater _ hi).1 (hlater _ hj).1).1 hij
  · simp only [List.map_cons, List.mem_cons, forall_eq_or_imp]
    by_cases hi : i = tp
    · -- nothing is triggered before the top entry that could be about it
      subst hi
      refine iff_of_true (Or.inl rfl) ⟨htp, hle, fun hb => absurd hb Before.irrefl,
        fun e he hb => ?_⟩
      obtain ⟨-, hne, hin, -⟩ := hlater e.1 (List.mem_map_of_mem he)
      exact absurd hb (hbehind e.1 hne hin).asymm
    · rw [or_iff_right hi, hfired.mem_iff]
      by_cases hcalled : ∀ c ∈ cs, c.tmr ≠ i
      · -- the order of the timers the calls are not about is the same after them
        have hdue := due_noteCalls hist tp i hahead
        have hbefore : ∀ e ∈ fired,
            (Before (noteCalls cs (.takenOff tp :: hist)) e.1 i ↔ Before hist e.1 i) :=
          fun e he => before_noteCalls (hlater e.1 (List.mem_map_of_mem he)).1 hcalled
        constructor
        · rintro ⟨h₁, h₂, h₃⟩
          obtain ⟨-, -, h₄, h₅⟩ := hdue.1 ⟨h₁, h₂⟩
          exact ⟨h₄, h₅, fun _ => hcalled, fun e he hb => h₃ e he ((hbefore e he).2 hb)⟩
        · rintro ⟨h₁, h₂, -, h₃⟩
          obtain ⟨h₄, h₅⟩ := hdue.2 ⟨hcalled, hi, h₁, h₂⟩
          exact ⟨h₄, h₅, fun e he hb => h₃ e he ((hbefore e he).1 hb)⟩
      · -- the callback of the top entry is about the timer
        refine iff_of_false (fun h => ?_) fun h => ?_
        · exact hcalled ((due_noteCalls hist tp i hahead).1 ⟨h.1, h.2.1⟩).1
        · exact hcalled (h.2.2.1 (hbehind i hi h.1))

/-- The loop, by the number of timers that are due. -/
theorem expires_of_loop (n : ℕ) : ∀ {s : Tempus ι φ π ω} {hist : List (Event ι)} {l : List ι},
    Reachable P (.loop tod) s hist → SchedulesAhead P tod s → CalloutList s hist l →
    (dueTimers hist tod l).length < n →
    ∃ fired s' hist', tempusMagnaCirculi P tod s = some (fired, s') ∧
      Expires hist tod fired ∧ TriggeredInTurn P fired s s' ∧ Reachable P .idle s' hist' := by
  induction n with
  | zero => exact fun _ _ _ hn => absurd hn (Nat.not_lt_zero _)
  | succ n ih =>
    intro s hist l h hahead hl hn
    rw [tempusMagnaCirculi]
    cases hdue : due tod s with
    | none => exact ⟨[], s, hist, rfl, Expires.nil hl hdue, .nil s, h.leave hdue⟩
    | some tp =>
      obtain ⟨hle, l, rfl, -⟩ := hl.fire P hdue
      obtain ⟨s₁, hs₁, h₁⟩ := h.magnaRound hdue
      obtain ⟨l₁, hl₁⟩ := h₁.calloutList
      have hcalls := (hahead s Relation.ReflTransGen.refl).trigger hdue
      have hlt := dueTimers_lt hl ⟨(hl.mem_iff tp).1 List.mem_cons_self, hle⟩ hcalls hl₁
      obtain ⟨fired, s', hist', hrun, hfired, hturn, h'⟩ := ih h₁
        (fun s₂ hs₂ => hahead s₂ (Relation.ReflTransGen.head ⟨tp, hdue, hs₁⟩ hs₂)) hl₁ (by omega)
      refine ⟨_, s', hist', ?_, hfired.cons hl hle hcalls,
        .cons (triggered_magnaRound hs₁) hturn, h'⟩
      simp only [hs₁, hrun, Option.bind_eq_bind, Option.bind_some]

/-- **Expired callouts fire exactly once, and in order**, nothing else
happens, and the loop ends. -/
theorem expires (h : Reachable P .idle s hist) (tod : Word) (hahead : SchedulesAhead P tod s) :
    ∃ fired s' hist', tempusMagnaCirculi P tod s = some (fired, s') ∧
      Expires hist tod fired ∧ TriggeredInTurn P fired s s' ∧ Reachable P .idle s' hist' := by
  obtain ⟨l, hl⟩ := h.calloutList
  exact expires_of_loop _ (h.enter tod) hahead hl (Nat.lt_succ_self _)

/-! ## Two of three -/

/-- Any calls can be made. -/
theorem Reachable.exists_calls (cs : List (Call ι φ π)) :
    ∀ {s : Tempus ι φ π ω} {hist : List (Event ι)}, Reachable P .idle s hist →
    ∃ s', Time.applyCalls cs s = some s' ∧ Reachable P .idle s' (noteCalls cs hist) := by
  induction cs with
  | nil => exact fun {s hist} h => ⟨s, rfl, h⟩
  | cons c cs ih =>
    intro s hist h
    obtain ⟨l, hl⟩ := h.calloutList
    obtain ⟨s', -, hs', -⟩ := hl.apply c
    obtain ⟨s'', hs'', h''⟩ := ih (h.call c hs')
    refine ⟨s'', ?_, h''⟩
    rw [Time.applyCalls, hs']
    exact hs''

/-- `TempusCallout` leaves the callbacks and the rest of the memory alone. -/
theorem tempusCallout_same {s' : Tempus ι φ π ω} {tmr : ι} {t : Word}
    (h : tempusCallout tmr t s = some s') : s'.func = s.func ∧ s'.world = s.world := by
  obtain ⟨list, -, h⟩ := Option.bind_eq_some_iff.1 h
  obtain ⟨list', -, h⟩ := Option.bind_eq_some_iff.1 h
  obtain rfl := Option.some.inj h
  exact ⟨rfl, rfl⟩

theorem applyCalls_same {cs : List (Call ι φ π)}
    (hcs : ∀ c ∈ cs, ∃ tmr t, c = .callout tmr t) :
    ∀ {s s' : Tempus ι φ π ω}, applyCalls cs s = some s' →
    s'.func = s.func ∧ s'.world = s.world := by
  induction cs with
  | nil =>
    intro s s' h
    obtain rfl := Option.some.inj h
    exact ⟨rfl, rfl⟩
  | cons c cs ih =>
    intro s s' h
    obtain ⟨s₁, h₁, hrest⟩ := Option.bind_eq_some_iff.1 h
    obtain ⟨tmr, t, rfl⟩ := hcs c List.mem_cons_self
    obtain ⟨hfunc, hworld⟩ := ih (fun c' hc' => hcs c' (List.mem_cons_of_mem _ hc')) hrest
    obtain ⟨hfunc', hworld'⟩ := tempusCallout_same h₁
    exact ⟨hfunc.trans hfunc', hworld.trans hworld'⟩

/-- The callback of timer 0 schedules it again and cancels timer 1. All note
their timer. -/
def cancelling : Callbacks (Fin 3) Unit Unit (List (Fin 3)) where
  setVar _ w := w
  callback _ tp s :=
    (if tp = 0 then [.callout 0 20#32, .callout 1 0#32] else [], s.world ++ [tp])

theorem cancelling_calls {s : Tempus (Fin 3) Unit Unit (List (Fin 3))} {tp : Fin 3} :
    ∀ c ∈ (cancelling.callback () tp s).1, ∃ tmr t, c = .callout tmr t := by
  intro c hc
  change c ∈ (if tp = 0 then [.callout 0 20#32, .callout 1 0#32] else []) at hc
  split at hc
  · simp only [List.mem_cons, List.not_mem_nil, or_false] at hc
    rcases hc with rfl | rfl
    · exact ⟨_, _, rfl⟩
    · exact ⟨_, _, rfl⟩
  · cases hc

/-- What is triggered is noted. -/
theorem TriggeredInTurn.noted {s s' : Tempus (Fin 3) Unit Unit (List (Fin 3))}
    {fired : List (Fin 3 × List (Call (Fin 3) Unit Unit))}
    (h : TriggeredInTurn cancelling fired s s') (hfunc : ∀ i, s.func i = some ()) :
    s'.world = s.world ++ fired.map Prod.fst ∧
      ∀ e ∈ fired, e.2 = if e.1 = 0 then [.callout 0 20#32, .callout 1 0#32] else [] := by
  induction h with
  | nil s => exact ⟨(List.append_nil _).symm, nofun⟩
  | cons h hrest ih =>
    cases h with
    | flag hnone =>
      rw [hfunc] at hnone
      cases hnone
    | callback _ hcalls =>
      obtain ⟨hsame, hworld⟩ := applyCalls_same cancelling_calls hcalls
      obtain ⟨ihworld, ihcalls⟩ := ih fun i => by rw [hsame]; exact hfunc i
      refine ⟨?_, List.forall_mem_cons.2 ⟨rfl, ihcalls⟩⟩
      rw [ihworld, hworld, List.map_cons, List.append_cons]
      rfl

/-- Timer 2 is the first, then comes timer 0, which cancels timer 1. -/
theorem Expires.two_of_three {fired : List (Fin 3 × List (Call (Fin 3) Unit Unit))}
    (h : Expires [.scheduled 2 3#32, .scheduled 1 5#32, .scheduled 0 5#32] 10#32 fired)
    (hcalls : ∀ e ∈ fired, e.2 = if e.1 = 0 then [.callout 0 20#32, .callout 1 0#32] else []) :
    fired.map Prod.fst = [2, 0] := by
  have hfirst : ∀ i : Fin 3,
      ¬ Before [.scheduled 2 3#32, .scheduled 1 5#32, .scheduled 0 (5#32 : Word)] i 2 := by
    decide
  have hsecond : ∀ i : Fin 3,
      Before [.scheduled 2 3#32, .scheduled 1 5#32, .scheduled 0 (5#32 : Word)] i 0 → i = 2 := by
    decide
  have htwo : 2 ∈ fired.map Prod.fst :=
    (h.mem_iff 2).2 ⟨by simp [Listed], by decide, fun e _ hb => absurd hb (hfirst e.1)⟩
  have hzero : 0 ∈ fired.map Prod.fst := by
    refine (h.mem_iff 0).2 ⟨by simp [Listed], by decide, fun e he hb c hc => ?_⟩
    rw [hcalls e he, hsecond e.1 hb] at hc
    cases hc
  have hone : 1 ∉ fired.map Prod.fst := by
    intro hin
    obtain ⟨e, he, he0⟩ := List.mem_map.1 hzero
    refine ((h.mem_iff 1).1 hin).2.2 e he (by rw [he0]; decide) (.callout 1 0#32) ?_ rfl
    rw [hcalls e he, he0]
    simp
  have hperm : (fired.map Prod.fst).Perm [2, 0] := by
    refine (List.perm_ext_iff_of_nodup h.nodup (by decide)).2 fun i => ?_
    fin_cases i
    · simpa using hzero
    · simpa using hone
    · simpa using htwo
  exact hperm.eq_of_pairwise (fun i j _ _ hij hji => absurd hji hij.asymm) h.sorted (by decide)

/-- At second 10 two of three timers expire, the second of which cancels the
third. -/
theorem expires_three : ∃ s fired s' hist',
    Reachable cancelling .idle s
      [.scheduled 2 3#32, .scheduled 1 5#32, .scheduled 0 (5#32 : Word)] ∧
    tempusMagnaCirculi cancelling 10#32 s = some (fired, s') ∧
    Expires [.scheduled 2 3#32, .scheduled 1 5#32, .scheduled 0 5#32] 10#32 fired ∧
    TriggeredInTurn cancelling fired s s' ∧ s.world = [] ∧ s'.world = [2, 0] ∧
    Reachable cancelling .idle s' hist' := by
  have h₀ : Reachable cancelling .idle
      ⟨⟨none, fun _ => none⟩, fun _ => 0#32, fun _ => some (), fun _ _ => (), []⟩ [] :=
    .start rfl fun _ => rfl
  obtain ⟨s, hs, h⟩ := h₀.exists_calls [.callout 0 5#32, .callout 1 5#32, .callout 2 3#32]
  obtain ⟨hfunc, hworld⟩ := applyCalls_same (by simp) hs
  obtain ⟨fired, s', hist', hrun, hexp, hturn, h'⟩ := expires h 10#32 fun s _ tp func _ _ c hc => by
    change c ∈ (if tp = 0 then [.callout 0 20#32, .callout 1 0#32] else []) at hc
    split at hc
    · simp only [List.mem_cons, List.not_mem_nil, or_false] at hc
      rcases hc with rfl | rfl
      · exact Or.inr (show (10#32 : Word) < 20#32 by decide)
      · exact Or.inl rfl
    · cases hc
  obtain ⟨hnoted, hcalls⟩ := hturn.noted fun i => by rw [hfunc]
  refine ⟨s, fired, s', hist', h, hrun, hexp, hturn, hworld, ?_, h'⟩
  rw [hnoted, hworld, List.nil_append, Expires.two_of_three hexp hcalls]

end Time

end AntTracer
