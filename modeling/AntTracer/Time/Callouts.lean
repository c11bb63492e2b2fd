import AntTracer.Record.Word
import AntTracer.Library.Links

/-!
# The callout list

`TempusCallout` puts a timer on a list sorted by time, or moves it, or takes
it off; `TempusMagnaCirculi` takes the timers that have expired off its head
and triggers them, and a callback may call `TempusCallout` again. The list is
threaded through the timers themselves. What it holds is said in terms of the
history of calls (`CalloutList`): `callouts_hold` says that it does in every
state the program can be in, and `expires` which timers one call of
`TempusMagnaCirculi` triggers.
-/

namespace AntTracer

namespace Time

/-! ## The source -/

/-- The timers and the callout list. A timer is a value of `ι`, a callback
function one of `φ`, a data pointer one of `π`, and the memory that has
nothing to do with callouts one of `ω`. -/
structure Tempus (ι φ π ω : Type) where
  /-- `tempusList`, and the `next` of each timer -/
  list : Links ι
  /-- the trigger time of each timer; zero when it is not active -/
  time : ι → Word
  /-- its callout function -/
  func : ι → Option φ
  /-- its callout data store -/
  data : ι → Fin 2 → π
  /-- everything else -/
  world : ω

/-- A call of the callout API. -/
inductive Call (ι φ π : Type)
  | callout (tmr : ι) (tod : Word)
  | calloutVar (tmr : ι) (tod : Word) (var : π)
  | calloutFunc (tmr : ι) (tod : Word) (func : Option φ) (d0 d1 : π)

variable {ι φ π ω : Type} [DecidableEq ι]

/-- The first loop of `TempusCallout`: find the timer, and take it off. -/
def tempusUnlink (tmr : ι) (list : Links ι) : Option (Links ι) := do
  let cpp ← list.seek (· = tmr) .head
  match list.get cpp with
  | some cp => some (list.set cpp (list.next cp))
  | none => some list

/-- The second loop, and the insertion: before the first timer with a later
time. -/
def tempusInsert (tmr : ι) (tod : Word) (time : ι → Word) (list : Links ι) :
    Option (Links ι) := do
  let cpp ← list.seek (fun cp => tod < time cp) .head
  some ((list.set (.next tmr) (list.get cpp)).set cpp (some tmr))

/-- Schedule a callout event to run at time `tod`. There is no result when
one of the two loops does not end. -/
def tempusCallout (tmr : ι) (tod : Word) (s : Tempus ι φ π ω) : Option (Tempus ι φ π ω) := do
  let list ← (if s.time tmr ≠ 0#32 then tempusUnlink tmr s.list else some s.list)
  let time := Function.update s.time tmr tod
  let list ← (if tod = 0#32 then some list else tempusInsert tmr tod time list)
  some { s with list := list, time := time }

def tempusCalloutVar (tmr : ι) (tod : Word) (var : π) (s : Tempus ι φ π ω) :
    Option (Tempus ι φ π ω) :=
  tempusCallout tmr tod
    { s with
      func := Function.update s.func tmr none
      data := Function.update s.data tmr (Function.update (s.data tmr) 0 var) }

def tempusCalloutFunc (tmr : ι) (tod : Word) (func : Option φ) (d0 d1 : π)
    (s : Tempus ι φ π ω) : Option (Tempus ι φ π ω) :=
  tempusCallout tmr tod
    { s with
      func := Function.update s.func tmr func
      data := Function.update s.data tmr ![d0, d1] }

/-- The timer a call is about. -/
def Call.tmr : Call ι φ π → ι
  | .callout tmr _ => tmr
  | .calloutVar tmr _ _ => tmr
  | .calloutFunc tmr _ _ _ _ => tmr

/-- The time it is called with. -/
def Call.tod : Call ι φ π → Word
  | .callout _ tod => tod
  | .calloutVar _ tod _ => tod
  | .calloutFunc _ tod _ _ _ => tod

/-- Make a call. -/
def Call.apply : Call ι φ π → Tempus ι φ π ω → Option (Tempus ι φ π ω)
  | .callout tmr tod => tempusCallout tmr tod
  | .calloutVar tmr tod var => tempusCalloutVar tmr tod var
  | .calloutFunc tmr tod func d0 d1 => tempusCalloutFunc tmr tod func d0 d1

/-- The rest of the program: what setting a flag does, and what calls a
callback makes and leaves of the rest of the memory. -/
structure Callbacks (ι φ π ω : Type) where
  /-- `*var = 1` -/
  setVar : π → ω → ω
  /-- `(*tp->func)(tp)` -/
  callback : φ → ι → Tempus ι φ π ω → List (Call ι φ π) × ω

variable (P : Callbacks ι φ π ω)

/-- The top entry of the list, if it has expired. -/
def due (tod : Word) (s : Tempus ι φ π ω) : Option ι :=
  match s.list.head with
  | none => none
  | some tp => if tod < s.time tp then none else some tp

/-- `tempusList = tp->next`. -/
def takeOff (tp : ι) (s : Tempus ι φ π ω) : Tempus ι φ π ω :=
  { s with list := s.list.set .head (s.list.next tp) }

/-- Call the callback, or set the flag: the calls there are to make, and the
state before them. -/
def trigger (tp : ι) (s : Tempus ι φ π ω) : List (Call ι φ π) × Tempus ι φ π ω :=
  match s.func tp with
  | some func =>
    let r := P.callback func tp s
    (r.1, { s with world := r.2 })
  | none => ([], { s with world := P.setVar (s.data tp 0) s.world })

/-- Make some calls, one after the other. -/
def applyCalls : List (Call ι φ π) → Tempus ι φ π ω → Option (Tempus ι φ π ω)
  | [], s => some s
  | c :: cs, s => do
    let s ← c.apply s
    applyCalls cs s

/-- One round of the loop of `TempusMagnaCirculi`, for the timer that is
due. -/
def magnaRound (tp : ι) (s : Tempus ι φ π ω) : Option (Tempus ι φ π ω) :=
  let r := trigger P tp (takeOff tp s)
  applyCalls r.1 r.2

/-- Run all entries on the top of the callout list that have expired time
values. Noted are the timers triggered, each with the calls its callback
made. -/
def Tempus.tempusMagnaCirculi (tod : Word) (s : Tempus ι φ π ω) :
    Option (List (ι × List (Call ι φ π)) × Tempus ι φ π ω) :=
  match due tod s with
  | none => some ([], s)
  | some tp => do
    let s' ← magnaRound P tp s
    let r ← s' |>.tempusMagnaCirculi tod
    some ((tp, (trigger P tp (takeOff tp s)).1) :: r.1, r.2)
partial_fixpoint

/-! ## The program around it -/

/-- Where the program is. -/
inductive Control (ι φ π : Type)
  /-- outside of `TempusMagnaCirculi` -/
  | idle
  /-- at the head of its loop -/
  | loop (tod : Word)
  /-- in a callback, with these calls still to make -/
  | callback (tod : Word) (calls : List (Call ι φ π))

/-- What has happened to the timers. -/
inductive Event (ι : Type)
  /-- `TempusCallout` was called -/
  | scheduled (tmr : ι) (tod : Word)
  /-- `TempusMagnaCirculi` took the timer off the list -/
  | takenOff (tmr : ι)

/-- What a call is in the history. -/
def Call.event (c : Call ι φ π) : Event ι := .scheduled c.tmr c.tod

/-- **The states of the program**, each with the history that led to it, the
newest event first. It starts with an empty list and timers that are zero;
then come calls, and runs of `TempusMagnaCirculi` at any time of day, which
may go on for ever. -/
inductive Reachable : Control ι φ π → Tempus ι φ π ω → List (Event ι) → Prop
  | start {s : Tempus ι φ π ω} (hhead : s.list.head = none) (htime : ∀ i, s.time i = 0#32) :
    Reachable .idle s []
  /-- a call from outside of any callback -/
  | call {s s' : Tempus ι φ π ω} {hist : List (Event ι)} (c : Call ι φ π)
    (h : Reachable .idle s hist) (hc : c.apply s = some s') : Reachable .idle s' (c.event :: hist)
  /-- the rest of the program goes on -/
  | other {s : Tempus ι φ π ω} {hist : List (Event ι)} (w : ω) (h : Reachable .idle s hist) :
    Reachable .idle { s with world := w } hist
  /-- `TempusMagnaCirculi` is called -/
  | enter {s : Tempus ι φ π ω} {hist : List (Event ι)} (tod : Word) (h : Reachable .idle s hist) :
    Reachable (.loop tod) s hist
  /-- a timer is due, and its callback begins -/
  | fire {s : Tempus ι φ π ω} {hist : List (Event ι)} {tod : Word} {tp : ι}
    (h : Reachable (.loop tod) s hist) (hdue : due tod s = some tp) :
    Reachable (.callback tod (trigger P tp (takeOff tp s)).1) (trigger P tp (takeOff tp s)).2
      (.takenOff tp :: hist)
  /-- the callback makes a call -/
  | again {s s' : Tempus ι φ π ω} {hist : List (Event ι)} {tod : Word} {c : Call ι φ π}
    {cs : List (Call ι φ π)} (h : Reachable (.callback tod (c :: cs)) s hist)
    (hc : c.apply s = some s') : Reachable (.callback tod cs) s' (c.event :: hist)
  /-- and is over -/
  | back {s : Tempus ι φ π ω} {hist : List (Event ι)} {tod : Word}
    (h : Reachable (.callback tod []) s hist) : Reachable (.loop tod) s hist
  /-- no timer is due -/
  | leave {s : Tempus ι φ π ω} {hist : List (Event ι)} {tod : Word}
    (h : Reachable (.loop tod) s hist) (hdue : due tod s = none) : Reachable .idle s hist

/-! ## What the list is for -/

/-- The timer's last `TempusCallout` had a time that is not zero, and it has
not been taken off since. -/
def Listed : List (Event ι) → ι → Prop
  | [], _ => False
  | .scheduled tmr tod :: hist, i => if i = tmr then tod ≠ 0#32 else Listed hist i
  | .takenOff tmr :: hist, i => i ≠ tmr ∧ Listed hist i

/-- The time of the timer's last `TempusCallout`. -/
def lastTime : List (Event ι) → ι → Word
  | [], _ => 0#32
  | .scheduled tmr tod :: hist, i => if i = tmr then tod else lastTime hist i
  | .takenOff _ :: hist, i => lastTime hist i

/-- When that was: the number of events up to it. -/
def lastCall : List (Event ι) → ι → ℕ
  | [], _ => 0
  | .scheduled tmr _ :: hist, i => if i = tmr then hist.length + 1 else lastCall hist i
  | .takenOff _ :: hist, i => lastCall hist i

/-- One timer comes before another: its time is earlier, or the same and it
was scheduled first. -/
def Before (hist : List (Event ι)) (i j : ι) : Prop :=
  lastTime hist i < lastTime hist j ∨
    lastTime hist i = lastTime hist j ∧ lastCall hist i < lastCall hist j

instance (hist : List (Event ι)) (i j : ι) : Decidable (Before hist i j) :=
  inferInstanceAs (Decidable (_ ∨ _))

/-- What the callout list is after a history of calls. -/
structure CalloutList (s : Tempus ι φ π ω) (hist : List (Event ι)) (l : List ι) : Prop where
  /-- the pointers lead through these timers to the null pointer -/
  chain : s.list.Chain l
  /-- no timer is on the list twice -/
  nodup : l.Nodup
  /-- the time of a timer is the one it was last scheduled for -/
  time : ∀ i, s.time i = lastTime hist i
  /-- earlier times come first, and of equal ones what was scheduled first -/
  sorted : l.Pairwise (Before hist)
  /-- the timers on the list are those scheduled and not taken off since -/
  mem_iff : ∀ i, i ∈ l ↔ Listed hist i

/-! ## Histories -/

section History

variable {hist : List (Event ι)} {i j k tmr : ι} {tod : Word}

theorem lastTime_ne_zero (h : Listed hist i) : lastTime hist i ≠ 0#32 := by
  induction hist with
  | nil => exact h.elim
  | cons e hist ih =>
    cases e with
    | scheduled tmr tod =>
      simp only [Listed, lastTime] at h ⊢
      split at h
      · rename_i hi
        rwa [if_pos hi]
      · rename_i hi
        rw [if_neg hi]
        exact ih h
    | takenOff tmr => exact ih h.2

theorem lastCall_le (hist : List (Event ι)) (i : ι) : lastCall hist i ≤ hist.length := by
  induction hist with
  | nil => exact le_rfl
  | cons e hist ih =>
    cases e with
    | scheduled tmr tod =>
      simp only [lastCall, List.length_cons]
      split <;> omega
    | takenOff tmr =>
      simp only [lastCall, List.length_cons]
      omega

theorem Before.irrefl : ¬ Before hist i i := by
  rintro (h | ⟨-, h⟩)
  · exact BitVec.lt_irrefl _ h
  · exact lt_irrefl _ h

theorem Before.asymm (h : Before hist i j) : ¬ Before hist j i := by
  simp only [Before, BitVec.lt_def, ← BitVec.toNat_inj] at *
  omega

theorem Before.trans (h₁ : Before hist i j) (h₂ : Before hist j k) : Before hist i k := by
  simp only [Before, BitVec.lt_def, ← BitVec.toNat_inj] at *
  omega

/-- Timers a call is not about stay in order. -/
theorem before_scheduled (hi : i ≠ tmr) (hj : j ≠ tmr) :
    Before (.scheduled tmr tod :: hist) i j ↔ Before hist i j := by
  simp only [Before, lastTime, lastCall, if_neg hi, if_neg hj]

/-- The timer scheduled last comes before those with a later time. -/
theorem before_scheduled_left (hj : j ≠ tmr) (h : tod < lastTime hist j) :
    Before (.scheduled tmr tod :: hist) tmr j := by
  left
  simpa only [lastTime, if_pos, if_neg hj] using h

/-- And after all the others. -/
theorem before_scheduled_right (hi : i ≠ tmr) (h : ¬ tod < lastTime hist i) :
    Before (.scheduled tmr tod :: hist) i tmr := by
  have hle := lastCall_le hist i
  simp only [Before, lastTime, lastCall, if_neg hi, if_pos, BitVec.lt_def, ← BitVec.toNat_inj]
    at h ⊢
  omega

end History

/-! ## One call -/

section Calls

variable {s s' : Tempus ι φ π ω} {hist : List (Event ι)} {l : List ι} {tp tmr : ι} {tod : Word}

/-- **The first loop ends**, and the timer is not on the list any more. -/
theorem tempusUnlink_spec {list : Links ι} (h : list.Chain l) (hnd : l.Nodup) (tmr : ι) :
    ∃ list', tempusUnlink tmr list = some list' ∧ list'.Chain (l.erase tmr) := by
  have hseek := Links.seek_spec (· = tmr) l [] h
  rw [Links.after_nil, List.nil_append] at hseek
  simp only [tempusUnlink, hseek, Option.bind_eq_bind, Option.bind_some]
  by_cases hmem : tmr ∈ l
  · -- the loop stops at the pointer to the timer
    obtain ⟨pre, post, rfl, hpre⟩ := List.eq_append_cons_of_mem hmem
    have htake : ((pre ++ tmr :: post).takeWhile fun i => ¬ i = tmr) = pre := by
      rw [List.takeWhile_append_of_pos fun i hi => by
        simpa using (by rintro rfl; exact hpre hi : i ≠ tmr)]
      simp
    rw [htake, h.get_after, List.erase_append_right _ hpre, List.erase_cons_head]
    exact ⟨_, rfl, h.unlink pre hnd⟩
  · -- or at the null pointer, and nothing is unlinked
    have htake : (l.takeWhile fun i => ¬ i = tmr) = l := by
      refine List.takeWhile_eq_self_iff.2 fun i hi => ?_
      simpa using (by rintro rfl; exact hmem hi : i ≠ tmr)
    have hget := Links.Chain.get_after l (by rwa [List.append_nil] : list.Chain (l ++ []))
    rw [htake, hget, List.erase_of_not_mem hmem]
    exact ⟨list, rfl, h⟩

/-- **The second loop ends**, and the timer is on the list. -/
theorem tempusInsert_spec {list : Links ι} (h : list.Chain l) (hnd : l.Nodup) (htmr : tmr ∉ l)
    (tod : Word) (time : ι → Word) :
    ∃ list', tempusInsert tmr tod time list = some list' ∧
      list'.Chain ((l.takeWhile fun i => ¬ tod < time i) ++
        tmr :: l.dropWhile fun i => ¬ tod < time i) := by
  have hseek := Links.seek_spec (fun i => tod < time i) l [] h
  rw [Links.after_nil, List.nil_append] at hseek
  simp only [tempusInsert, hseek, Option.bind_eq_bind, Option.bind_some]
  refine ⟨_, rfl, Links.Chain.insert ?_ ?_ ?_⟩
  all_goals rwa [List.takeWhile_append_dropWhile]

/-- **The timer is off the list** when `TempusCallout` comes to its time. -/
theorem CalloutList.unlinked (h : CalloutList s hist l) (tmr : ι) : ∃ list,
    (if s.time tmr ≠ 0#32 then tempusUnlink tmr s.list else some s.list) = some list ∧
      list.Chain (l.erase tmr) := by
  by_cases h0 : s.time tmr = 0#32
  · -- no timer on the list has the time zero, so there is nothing to do
    have hout : tmr ∉ l := fun hin =>
      lastTime_ne_zero ((h.mem_iff tmr).1 hin) ((h.time tmr).symm.trans h0)
    rw [if_neg (not_not.2 h0), List.erase_of_not_mem hout]
    exact ⟨s.list, rfl, h.chain⟩
  · rw [if_pos h0]
    exact tempusUnlink_spec h.chain h.nodup tmr

/-- The times with that of the call. -/
theorem CalloutList.time_scheduled (h : CalloutList s hist l) (tmr : ι) (tod : Word) (i : ι) :
    Function.update s.time tmr tod i = lastTime (.scheduled tmr tod :: hist) i := by
  by_cases hi : i = tmr
  · rw [hi, Function.update_self, lastTime, if_pos rfl]
  · rw [Function.update_of_ne hi, lastTime, if_neg hi, h.time]

/-- The other timers on the list. -/
theorem CalloutList.mem_erase (h : CalloutList s hist l) (tmr : ι) (i : ι) :
    i ∈ l.erase tmr ↔ i ≠ tmr ∧ Listed hist i := by
  rw [h.nodup.mem_erase_iff, h.mem_iff]

/-- They stay in order. -/
theorem CalloutList.sorted_erase (h : CalloutList s hist l) (tmr : ι) (tod : Word) :
    (l.erase tmr).Pairwise (Before (.scheduled tmr tod :: hist)) :=
  (h.sorted.sublist List.erase_sublist).imp_of_mem fun {i j} hi hj hij =>
    (before_scheduled ((h.mem_erase tmr i).1 hi).1 ((h.mem_erase tmr j).1 hj).1).2 hij

/-- And the timer goes in after those with the same time. -/
theorem CalloutList.sorted_insert (h : CalloutList s hist l) (tmr : ι) (tod : Word) :
    ((l.erase tmr).takeWhile (fun i => ¬ tod < lastTime (.scheduled tmr tod :: hist) i) ++
      tmr :: (l.erase tmr).dropWhile fun i =>
        ¬ tod < lastTime (.scheduled tmr tod :: hist) i).Pairwise
      (Before (.scheduled tmr tod :: hist)) := by
  -- the loop passes the timers with no later time, and times do not decrease after it
  refine Links.pairwise_insert (h.sorted_erase tmr tod) (fun j hj hlt => ?_) (fun j hj hlt => ?_)
    fun i j hij hlt => ?_
  · have hne := ((h.mem_erase tmr j).1 hj).1
    rw [lastTime, if_neg hne] at hlt
    exact before_scheduled_right hne hlt
  · have hne := ((h.mem_erase tmr j).1 hj).1
    rw [lastTime, if_neg hne] at hlt
    exact before_scheduled_left hne hlt
  · rcases hij with hij | ⟨hij, -⟩
    · exact BitVec.lt_trans hlt hij
    · rwa [← hij]

/-- **What `TempusCallout` does**: it returns, and the list is what the
history with this call says. -/
theorem CalloutList.callout (h : CalloutList s hist l) (tmr : ι) (tod : Word) :
    ∃ s' l', tempusCallout tmr tod s = some s' ∧
      CalloutList s' (.scheduled tmr tod :: hist) l' := by
  obtain ⟨list, hunlink, hchain⟩ := h.unlinked tmr
  have hnd := h.nodup.erase tmr
  have htime := h.time_scheduled tmr tod
  by_cases h0 : tod = 0#32
  · -- the timer is deleted
    refine ⟨{ s with list := list, time := Function.update s.time tmr tod }, l.erase tmr, by
      simp only [tempusCallout, hunlink, if_pos h0, Option.bind_eq_bind, Option.bind_some],
      hchain, hnd, htime, h.sorted_erase tmr tod, fun i => ?_⟩
    rw [h.mem_erase, Listed]
    by_cases hi : i = tmr
    · rw [if_pos hi]
      exact iff_of_false (fun h => h.1 hi) (fun h => h h0)
    · rw [if_neg hi]
      exact and_iff_right hi
  · -- the timer goes in
    have htmr : tmr ∉ l.erase tmr := h.nodup.not_mem_erase
    obtain ⟨list', hinsert, hins⟩ := tempusInsert_spec hchain hnd htmr tod
      (Function.update s.time tmr tod)
    refine ⟨{ s with list := list', time := Function.update s.time tmr tod }, _, by
      simp only [tempusCallout, hunlink, if_neg h0, hinsert, Option.bind_eq_bind,
        Option.bind_some], hins, ?_, htime, ?_, fun i => ?_⟩
    · rw [List.nodup_middle, List.takeWhile_append_dropWhile]
      exact List.nodup_cons.2 ⟨htmr, hnd⟩
    · simp only [htime]
      exact h.sorted_insert tmr tod
    · rw [List.mem_append, List.mem_cons, or_left_comm, ← List.mem_append,
        List.takeWhile_append_dropWhile, h.mem_erase, Listed]
      by_cases hi : i = tmr
      · rw [if_pos hi]
        exact iff_of_true (Or.inl hi) h0
      · rw [if_neg hi, or_iff_right hi, and_iff_right hi]

/-- **Besides the list** a call sets the time of its timer, and what is to be
done when it is due. -/
theorem tempusCallout_fields (h : tempusCallout tmr tod s = some s') :
    s'.time = Function.update s.time tmr tod ∧ s'.func = s.func ∧ s'.world = s.world := by
  unfold tempusCallout at h
  obtain ⟨_, -, h⟩ := Option.bind_eq_some_iff.1 h
  obtain ⟨_, -, h⟩ := Option.bind_eq_some_iff.1 h
  rw [← Option.some.inj h]
  exact ⟨rfl, rfl, rfl⟩

theorem Call.apply_world {c : Call ι φ π} (h : c.apply s = some s') : s'.world = s.world := by
  cases c with
  | callout tmr tod => exact (tempusCallout_fields h).2.2
  | calloutVar tmr tod var => exact (tempusCallout_fields h).2.2
  | calloutFunc tmr tod func d0 d1 => exact (tempusCallout_fields h).2.2

/-- The list has to do with pointers and times alone. -/
theorem CalloutList.congr (h : CalloutList s hist l) (hlist : s'.list = s.list)
    (htime : s'.time = s.time) : CalloutList s' hist l :=
  ⟨hlist ▸ h.chain, h.nodup, fun i => htime ▸ h.time i, h.sorted, h.mem_iff⟩

/-- **Every call returns**, and does to the list what the history says. -/
theorem CalloutList.apply (h : CalloutList s hist l) (c : Call ι φ π) :
    ∃ s' l', c.apply s = some s' ∧ CalloutList s' (c.event :: hist) l' := by
  cases c with
  | callout tmr tod => exact h.callout tmr tod
  | calloutVar tmr tod var =>
    have h' : CalloutList
        { s with
          func := Function.update s.func tmr none
          data := Function.update s.data tmr (Function.update (s.data tmr) 0 var) } hist l :=
      h.congr rfl rfl
    exact h'.callout tmr tod
  | calloutFunc tmr tod func d0 d1 =>
    have h' : CalloutList
        { s with
          func := Function.update s.func tmr func
          data := Function.update s.data tmr ![d0, d1] } hist l :=
      h.congr rfl rfl
    exact h'.callout tmr tod

/-- After a call the list is what the history says. -/
theorem CalloutList.called (h : CalloutList s hist l) {c : Call ι φ π} (hc : c.apply s = some s') :
    ∃ l', CalloutList s' (c.event :: hist) l' := by
  obtain ⟨s₁, l', hs₁, hl'⟩ := h.apply c
  obtain rfl : s₁ = s' := Option.some.inj (hs₁.symm.trans hc)
  exact ⟨l', hl'⟩

/-- A timer that is due is the top entry. -/
theorem due_eq_some_iff (h : CalloutList s hist l) :
    due tod s = some tp ↔ l.head? = some tp ∧ lastTime hist tp ≤ tod := by
  have hhead : s.list.head = l.head? := Links.Chain.get_after [] h.chain
  rw [due, hhead]
  cases l with
  | nil => simp
  | cons i l =>
    simp only [List.head?_cons, h.time, Option.some.injEq]
    by_cases hlt : tod < lastTime hist i
    · rw [if_pos hlt]
      refine iff_of_false nofun ?_
      rintro ⟨rfl, hle⟩
      exact absurd hlt (BitVec.not_lt.2 hle)
    · rw [if_neg hlt, Option.some.injEq]
      refine ⟨?_, And.left⟩
      rintro rfl
      exact ⟨rfl, BitVec.not_lt.1 hlt⟩

/-- **What taking a timer off does.** -/
theorem CalloutList.takeOff (h : CalloutList s hist (tp :: l)) :
    CalloutList (Time.takeOff tp s) (.takenOff tp :: hist) l := by
  obtain ⟨hchain, hnd, htime, hsorted, hmem⟩ := h
  obtain ⟨htp, hnd'⟩ := List.nodup_cons.1 hnd
  refine ⟨Links.Chain.unlink [] hchain hnd, hnd', htime,
    (List.pairwise_cons.1 hsorted).2, fun i => ?_⟩
  -- the timer was on the list once, so it is on it no more
  rw [Listed, ← hmem, List.mem_cons]
  by_cases hi : i = tp
  · rw [hi]
    exact iff_of_false htp fun h => h.1 rfl
  · rw [or_iff_right hi, and_iff_right hi]

omit [DecidableEq ι] in
/-- Until its calls a callback leaves pointers and times alone. -/
theorem trigger_list (tp : ι) (s : Tempus ι φ π ω) :
    (trigger P tp s).2.list = s.list ∧ (trigger P tp s).2.time = s.time := by
  unfold trigger
  split <;> exact ⟨rfl, rfl⟩

/-- **A timer that is due** comes off the top of the list. -/
theorem CalloutList.fire (h : CalloutList s hist l) (hdue : due tod s = some tp) :
    lastTime hist tp ≤ tod ∧ ∃ l', l = tp :: l' ∧
      CalloutList (trigger P tp (Time.takeOff tp s)).2 (.takenOff tp :: hist) l' := by
  obtain ⟨hhead, hle⟩ := (due_eq_some_iff h).1 hdue
  obtain ⟨l', rfl⟩ := List.head?_eq_some_iff.1 hhead
  obtain ⟨hlist, htime⟩ := trigger_list P tp (Time.takeOff tp s)
  exact ⟨hle, l', rfl, h.takeOff.congr hlist htime⟩

end Calls

/-! ## Every state -/

variable {P}

/-- The list is what the history says, in every state. -/
theorem Reachable.calloutList {c : Control ι φ π} {s : Tempus ι φ π ω} {hist : List (Event ι)}
    (h : Reachable P c s hist) : ∃ l, CalloutList s hist l := by
  induction h with
  | start hhead htime =>
    exact ⟨[], hhead, List.nodup_nil, htime, List.Pairwise.nil,
      fun i => iff_of_false List.not_mem_nil id⟩
  | call c _ hc ih =>
    obtain ⟨l, hl⟩ := ih
    exact hl.called hc
  | other w _ ih =>
    obtain ⟨l, hl⟩ := ih
    exact ⟨l, hl.congr rfl rfl⟩
  | enter _ _ ih => exact ih
  | fire _ hdue ih =>
    obtain ⟨l, hl⟩ := ih
    obtain ⟨-, l', -, hl'⟩ := hl.fire P hdue
    exact ⟨l', hl'⟩
  | again _ hc ih =>
    obtain ⟨l, hl⟩ := ih
    exact hl.called hc
  | back _ ih => exact ih
  | leave _ _ ih => exact ih

/-- **The callout list holds** what it is there to hold, in every state of the
program, and no call on it hangs. -/
theorem callouts_hold {c : Control ι φ π} {s : Tempus ι φ π ω} {hist : List (Event ι)}
    (h : Reachable P c s hist) :
    (∃ l, CalloutList s hist l) ∧ ∀ call : Call ι φ π, (call.apply s).isSome := by
  obtain ⟨l, hl⟩ := h.calloutList
  refine ⟨⟨l, hl⟩, fun call => ?_⟩
  obtain ⟨s', -, hs', -⟩ := hl.apply call
  rw [hs']
  rfl

/-- A call can be made at any time. -/
theorem Reachable.exists_call {s : Tempus ι φ π ω} {hist : List (Event ι)}
    (h : Reachable P .idle s hist) (c : Call ι φ π) :
    ∃ s', Reachable P .idle s' (c.event :: hist) := by
  obtain ⟨l, hl⟩ := h.calloutList
  obtain ⟨s', -, hs', -⟩ := hl.apply c
  exact ⟨s', h.call c hs'⟩

/-- A timer is scheduled, a second one for the same time, and the first one
again. -/
theorem callouts_hold_twice : ∃ s : Tempus (Fin 2) Unit Unit Unit,
    (∃ l, CalloutList s [.scheduled 0 5#32, .scheduled 1 5#32, .scheduled 0 5#32] l) ∧
      ∀ call : Call (Fin 2) Unit Unit, (call.apply s).isSome := by
  have h₀ : Reachable (⟨fun _ w => w, fun _ _ _ => ([], ())⟩ : Callbacks (Fin 2) Unit Unit Unit)
      .idle ⟨⟨none, fun _ => none⟩, fun _ => 0#32, fun _ => none, fun _ _ => (), ()⟩ [] :=
    .start rfl fun _ => rfl
  obtain ⟨s₁, h₁⟩ := h₀.exists_call (.callout 0 5#32)
  obtain ⟨s₂, h₂⟩ := h₁.exists_call (.calloutVar 1 5#32 ())
  obtain ⟨s₃, h₃⟩ := h₂.exists_call (.callout 0 5#32)
  exact ⟨s₃, callouts_hold h₃⟩

end Time

end AntTracer
