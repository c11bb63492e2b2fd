import AntTracer.App.Progress
import AntTracer.App.Recency

/-!
# A request at a time

The sender of a software update waits for each request to be stored before it
makes the next one. Then the records of the requests are in the log in the
order in which they were made, each of them once (`session_log`).
-/

namespace AntTracer

namespace App

/-! ## Orders -/

/-- A request, and what the soft device does before each of the passes that
follow. -/
structure Order where
  request : StoreEvent
  turns : List (List SdEvent)

/-- The request is made, and the passes follow. -/
def order (s : Store) (o : Order) : Store := Runs.run turn (storeStep s o.request) o.turns

/-- A part of an update is asked for, the soft device reports each operation,
and there are passes enough. -/
structure Attended (s : Store) (o : Order) : Prop where
  asked : (callOf o.request).isSome
  reports : Runs.Each turn Reports (storeStep s o.request) o.turns
  passes : 23 ≤ o.turns.length

section Orders

variable {s : Store} {e : StoreEvent} {c : Rec} {old : List (List Word)} {calls : List Rec}

/-- At rest a request meets no other. -/
theorem AtRest.separate (h : AtRest s) (hc : (callOf e).isSome) : Separate ⟨s, calls⟩ e := by
  have halone : ∀ (p : Part) (f : Union → Union), Alone p f s := fun p f =>
    ⟨h.parts p, fun q _ hq => absurd (h.parts q) (by rw [hq]; exact Bool.noConfusion)⟩
  cases e with
  | loop | device | tick | change | factory | save => trivial
  | info sui => exact halone .hdr fun u => u.setSui sui
  | exec sux => exact halone .exec fun u => u.setSux sux
  | chunk sud =>
    refine ⟨?_, halone .data fun u => u.setSud sud⟩
    by_contra hlen
    rw [callOf, dif_neg hlen] at hc
    cases hc

theorem ne_loop_of_call (hc : (callOf e).isSome) : e ≠ .loop := by
  rintro rfl
  cases hc

/-- An order keeps the account of the calls. -/
theorem Answering.order (h : Answering old ⟨s, calls⟩) (hrest : AtRest s) {o : Order}
    (ha : Attended s o) :
    Answering old ⟨App.order s o, calls ++ (callOf o.request).toList⟩ :=
  (h.step (hrest.separate ha.asked)).turns o.turns

theorem turn_eq_run (s : Store) (ds : List SdEvent) :
    turn s ds = Runs.run storeStep s (ds.map .device ++ [.loop]) := by
  have hrun : ∀ (ds : List SdEvent) (s : Store),
      Runs.run storeStep s (ds.map .device) = { s with log := Runs.run sdEvent s.log ds } := by
    intro ds
    induction ds with
    | nil => exact fun _ => rfl
    | cons d ds ih => exact fun s => ih (storeStep s (.device d))
  rw [Runs.run_append, hrun]
  rfl

/-- The events of an order. -/
def Order.events (o : Order) : List StoreEvent :=
  o.request :: o.turns.flatMap fun ds => ds.map .device ++ [.loop]

theorem order_eq_run (s : Store) (o : Order) : order s o = Runs.run storeStep s o.events := by
  have hturns : ∀ (bs : List (List SdEvent)) (s : Store), Runs.run turn s bs =
      Runs.run storeStep s (bs.flatMap fun ds => ds.map .device ++ [.loop]) := by
    intro bs
    induction bs with
    | nil => exact fun _ => rfl
    | cons b bs ih =>
      intro s
      rw [Runs.run_cons, ih, List.flatMap_cons, Runs.run_append, turn_eq_run]
  rw [order, hturns, Order.events, Runs.run_cons]

/-- An order is a run of events. -/
theorem orders_eq_run (os : List Order) : ∀ s : Store,
    Runs.run order s os = Runs.run storeStep s (os.flatMap Order.events) := by
  induction os with
  | nil => exact fun _ => rfl
  | cons o os ih =>
    intro s
    rw [Runs.run_cons, ih, List.flatMap_cons, Runs.run_append, order_eq_run]

theorem order_advances (h : Between s) (o : Order) (hc : (callOf o.request).isSome) :
    s.log.advances ≤ (order s o).log.advances := by
  have hsame := (storeStep_history s (ne_loop_of_call hc)).1
  exact hsame ▸ turns_advances o.turns (h.step o.request)

theorem Between.order (h : Between s) (o : Order) : Between (App.order s o) := by
  rw [order_eq_run]
  exact Runs.inv_run (fun _ e hs => hs.step e) h _

/-- **An order is carried out.** -/
theorem order_log (h : Between s) (hrest : AtRest s) {o : Order} (ha : Attended s o)
    (hadv : (order s o).log.advances < 2 ^ 26 - 1) : AtRest (order s o) ∧
      ∃ new, (order s o).log.words = s.log.words ++ new ∧
        new.filter IsPart = (callOf o.request).toList.map Rec.words := by
  have hrest' : AtRest (order s o) := (h.step o.request).atRest o.turns ha.reports
    ((stepsLeft_le _).trans ha.passes) hadv
  have hinit : s.state ≠ .init0 := by
    rw [hrest.state]
    exact State.noConfusion
  have hcalls : waitingCalls s = [] := by
    have := waitingCalls_words s
    rw [hrest.waitingWords_eq] at this
    exact List.map_eq_nil_iff.1 this
  have hserved := ((answering_here h hinit).order hrest ha).served hadv
  obtain ⟨new, hnew, hperm⟩ := hserved.produced_atRest hrest'
  refine ⟨hrest', new, hnew, ?_⟩
  rw [hcalls, List.nil_append] at hperm
  obtain ⟨c, hc⟩ := Option.isSome_iff_exists.1 ha.asked
  rw [hc] at hperm ⊢
  exact List.perm_singleton.1 hperm

end Orders

/-! ## Sessions -/

section Sessions

variable {s : Store}

/-- The calls of the orders. -/
def callsOf (os : List Order) : List Rec := os.flatMap fun o => (callOf o.request).toList

theorem orders_advances (os : List Order) : ∀ {s : Store}, Between s →
    Runs.Each order Attended s os → s.log.advances ≤ (Runs.run order s os).log.advances := by
  induction os with
  | nil => exact fun _ _ => le_rfl
  | cons o os ih =>
    intro s h hatt
    exact (order_advances h o hatt.1.asked).trans (ih (h.order o) hatt.2)

/-- **The records come in order.** -/
theorem orders_log (os : List Order) : ∀ {s : Store}, Between s → AtRest s →
    Runs.Each order Attended s os → (Runs.run order s os).log.advances < 2 ^ 26 - 1 →
    AtRest (Runs.run order s os) ∧ ∃ new, (Runs.run order s os).log.words = s.log.words ++ new ∧
      new.filter IsPart = (callsOf os).map Rec.words := by
  induction os with
  | nil => exact fun _ hrest _ _ => ⟨hrest, [], (List.append_nil _).symm, rfl⟩
  | cons o os ih =>
    intro s h hrest hatt hadv
    have hlt := (orders_advances os (h.order o) hatt.2).trans_lt hadv
    obtain ⟨hrest₁, new₁, hw₁, hf₁⟩ := order_log h hrest hatt.1 hlt
    obtain ⟨hrest₂, new₂, hw₂, hf₂⟩ := ih (h.order o) hrest₁ hatt.2 hadv
    refine ⟨hrest₂, new₁ ++ new₂, ?_, ?_⟩
    · rw [Runs.run_cons, hw₂, hw₁, List.append_assoc]
    · rw [List.filter_append, hf₁, hf₂, ← List.map_append]
      rfl

/-- And none of them is left behind. -/
theorem orders_answering (os : List Order) : ∀ {s : Store} {old : List (List Word)}
    {calls : List Rec}, Answering old ⟨s, calls⟩ → AtRest s → Runs.Each order Attended s os →
    (Runs.run order s os).log.advances < 2 ^ 26 - 1 →
    Answering old ⟨Runs.run order s os, calls ++ callsOf os⟩ := by
  induction os with
  | nil => exact fun h _ _ _ => (List.append_nil _).symm ▸ h
  | cons o os ih =>
    intro s old calls h hrest hatt hadv
    have hlt := (orders_advances os (h.between.order o) hatt.2).trans_lt hadv
    have hrest₁ := (order_log h.between hrest hatt.1 hlt).1
    have hall := ih (h.order hrest hatt.1) hrest₁ hatt.2 hadv
    rw [List.append_assoc] at hall
    exact hall

/-- **A session**: what is asked for is stored, in order, and all records since
are completed. -/
theorem session_log {os : List Order} (h : Between s) (hrest : AtRest s)
    (hatt : Runs.Each order Attended s os)
    (hadv : (Runs.run order s os).log.advances < 2 ^ 26 - 1) :
    AtRest (Runs.run order s os) ∧
      (∃ new, (Runs.run order s os).log.words = s.log.words ++ new ∧
        new.filter IsPart = (callsOf os).map Rec.words) ∧
      ∀ r ∈ (Runs.run order s os).log.records.drop s.log.records.length,
        r.status = .completed := by
  obtain ⟨hrest', hwords⟩ := orders_log os h hrest hatt hadv
  have hinit : s.state ≠ .init0 := by
    rw [hrest.state]
    exact State.noConfusion
  have hserved := (orders_answering os (answering_here h hinit) hrest hatt hadv).served hadv
  have hlength : s.log.words.length = s.log.records.length := List.length_map _
  exact ⟨hrest', hwords, hlength ▸ hserved.settled_atRest hrest'⟩

end Sessions

/-! ## Pages in a session

A round begins at most one page, and leaves fewer rounds to go. -/

section Budget

variable {s s' : Store}

theorem Round.advances_succ (h : Round s s') : s'.log.advances ≤ s.log.advances + 1 := by
  cases h with
  | init0 => exact (init0_advances s).le.trans (Nat.le_succ _)
  | slot | erase | rewrite | saved => exact Nat.le_succ _
  | full =>
    exact (appendRecord_advances rtConfig
      (configFields (copyConfig (takeConfig s)).log.staging.config)
        (copyConfig (takeConfig s)).log).2
  | part p => exact (appendRecord_advances p.type (p.fields s.log.staging.su) s.log).2
  | go => exact (wrGo_advances (s := s.log) rfl).2

/-- The pages begun, and those that may still be. -/
def budget (s : Store) : ℕ := s.log.advances + stepsLeft s

theorem Sound.rounds_budget (h : Sound s) (hlt : budget s < 2 ^ 26 - 1)
    (hrounds : Relation.ReflTransGen Round s s') : Sound s' ∧ budget s' ≤ budget s := by
  induction hrounds with
  | refl => exact ⟨h, le_rfl⟩
  | @tail s₁ s₂ _ hround ih =>
    obtain ⟨hsound, hle⟩ := ih
    have hadv : s₁.log.advances < 2 ^ 26 - 1 := by
      unfold budget at hle hlt
      omega
    refine ⟨hsound.round hround hadv, ?_⟩
    have h₁ := hround.advances_succ
    have h₂ := hround.stepsLeft_lt hsound
    unfold budget at *
    omega

theorem Between.turn_budget (h : Between s) (hlt : budget s < 2 ^ 26 - 1) (ds : List SdEvent) :
    Between (turn s ds) ∧ budget (turn s ds) ≤ budget s := by
  obtain ⟨h₁, h₂, h₃⟩ := device_run h ds
  have hsame : budget { s with log := Runs.run sdEvent s.log ds } = budget s := by
    rw [budget, h₂]
    exact congrArg (· + stepsLeft s) h₃
  have hadv : s.log.advances < 2 ^ 26 - 1 := by
    unfold budget at hlt
    omega
  obtain ⟨-, hle⟩ := (h₁.sound (h₃.trans_lt hadv)).rounds_budget (hsame ▸ hlt)
    (storeLoop_rounds 7 _ h₁.resting)
  exact ⟨h₁.step .loop, hle.trans hsame.le⟩

end Budget

/-! ## A soft device that does its work -/

/-- All words of an operation, and the report. -/
def diligent : List SdEvent := List.replicate bufferSize .work ++ [.success]

section Diligent

variable {l : Log} {s : Store} {dst cnt page : ℕ} {src : Source} {programmed : List Word}

theorem works_write (n : ℕ) : ∀ {l : Log} {p : List Word},
    l.sd = some (.write dst src cnt p) → p.length ≤ cnt → cnt ≤ p.length + n →
    ∃ p', p'.length = cnt ∧
      (Runs.run sdEvent l (List.replicate n .work)).sd = some (.write dst src cnt p') := by
  induction n with
  | zero => exact fun hsd hle hge => ⟨_, le_antisymm hle hge, hsd⟩
  | succ n ih =>
    intro l p hsd hle hge
    rw [List.replicate_succ, Runs.run_cons]
    by_cases hlt : p.length < cnt
    · refine ih (p := p ++ [l.ram src p.length]) ?_ ?_ ?_
      · rw [sdEvent, sdStep, hsd]
        dsimp only
        rw [if_pos hlt]
      · rw [List.length_append, List.length_singleton]
        omega
      · rw [List.length_append, List.length_singleton]
        omega
    · refine ih (p := p) ?_ hle (by omega)
      rw [sdEvent, sdStep, hsd]
      dsimp only
      rw [if_neg hlt, hsd]

/-- A write is through, and reported. -/
theorem diligent_write (hsd : l.sd = some (.write dst src cnt programmed))
    (hle : programmed.length ≤ cnt) (hcnt : cnt ≤ bufferSize) :
    (Runs.run sdEvent l diligent).flashComplete = true := by
  obtain ⟨programmed', hlen, hsd'⟩ := works_write bufferSize hsd hle (by omega)
  rw [diligent, Runs.run_append, Runs.run_cons, Runs.run_nil, sdEvent, sdSuccess, hsd']
  dsimp only
  rw [if_pos hlen]
  rfl

/-- An erase is through, and reported. -/
theorem diligent_erase {done : Bool} (hsd : l.sd = some (.erase page done)) :
    (Runs.run sdEvent l diligent).flashComplete = true := by
  have hworks : ∀ (n : ℕ) {l : Log}, l.sd = some (.erase page true) →
      (Runs.run sdEvent l (List.replicate n .work)).sd = some (.erase page true) := by
    intro n
    induction n with
    | zero => exact fun h => h
    | succ n ih =>
      intro l hsd
      rw [List.replicate_succ, Runs.run_cons]
      refine ih ?_
      rw [sdEvent, sdStep, hsd]
      exact hsd
  have hfirst : (sdEvent l .work).sd = some (.erase page true) := by
    rw [sdEvent, sdStep, hsd]
    cases done with
    | false => rfl
    | true => exact hsd
  have hsd' : (Runs.run sdEvent l (List.replicate bufferSize .work)).sd =
      some (.erase page true) := hworks 39 hfirst
  rw [diligent, Runs.run_append, Runs.run_cons, Runs.run_nil, sdEvent, sdSuccess, hsd']
  rfl

theorem diligent_none (hsd : l.sd = none) (hfc : l.flashComplete = true) :
    (Runs.run sdEvent l diligent).flashComplete = true := by
  have hsame : ∀ ds : List SdEvent, Runs.run sdEvent l ds = l := by
    intro ds
    induction ds with
    | nil => rfl
    | cons d ds ih => rw [Runs.run_cons, sdEvent_of_none hsd, ih]
  rw [hsame]
  exact hfc

theorem WritingOp.diligent {W : List Word} {j : ℕ} (h : WritingOp l dst src W j)
    (hW : W.length ≤ bufferSize) :
    (Runs.run sdEvent l diligent).flashComplete = true :=
  diligent_write h.sd (List.length_take_le' _ _) hW

/-- **It reports what it is waited for.** -/
theorem Sound.reports (h : Sound s) : Reports s diligent := by
  intro hwait
  rcases hwait with hs | hs | hs
  · obtain ⟨hwork, -⟩ := h.stage.writing hs
    cases hwork with
    | @erasing t spare rs r b more state needSeq tail op =>
      rcases op with ⟨done, op, -⟩ | ⟨-, hsd, hfc⟩
      · exact diligent_erase op.sd
      · exact diligent_none hsd hfc
    | @writing t spare flash rs r W n k w op =>
      rcases op with ⟨j, -, op⟩ | ⟨-, hsd, hfc⟩
      · refine op.diligent ?_
        have hshort := w.record.short
        have hplaced := w.placed
        generalize s.log.currentWrite = ptr at hplaced
        cases hplaced with
        | inPage => exact hshort.le
        | turning =>
          rw [List.length_append]
          exact hshort
      · exact diligent_none hsd hfc
  · obtain ⟨⟨-, -, ⟨done, op, -⟩ | ⟨-, hsd, hfc⟩⟩, -⟩ := h.stage.erasing hs
    · exact diligent_erase op.sd
    · exact diligent_none hsd hfc
  · obtain ⟨⟨flash, i, k, hslot⟩, -⟩ := h.stage.slot hs
    rcases hslot.op with ⟨j, -, op⟩ | ⟨-, hsd, hfc⟩
    · refine op.diligent ?_
      rw [Config.length_words]
      decide
    · exact diligent_none hsd hfc

theorem turns_diligent (n : ℕ) : ∀ {s : Store}, Between s → budget s < 2 ^ 26 - 1 →
    Runs.Each turn Reports s (List.replicate n diligent) ∧
      budget (Runs.run turn s (List.replicate n diligent)) ≤ budget s := by
  induction n with
  | zero => exact fun _ _ => ⟨trivial, le_rfl⟩
  | succ n ih =>
    intro s h hlt
    obtain ⟨hnext, hle⟩ := h.turn_budget hlt diligent
    obtain ⟨hrep, hle'⟩ := ih hnext (hle.trans_lt hlt)
    refine ⟨⟨(h.sound ?_).reports, hrep⟩, hle'.trans hle⟩
    unfold budget at hlt
    omega

/-- A request, and a soft device that does its work. -/
def attend (e : StoreEvent) : Order := ⟨e, List.replicate 23 diligent⟩

theorem attended_attend {e : StoreEvent} (hc : (callOf e).isSome) (h : Between s)
    (hadv : s.log.advances + 23 < 2 ^ 26 - 1) : Attended s (attend e) ∧
      (order s (attend e)).log.advances ≤ s.log.advances + 23 := by
  have hsame := (storeStep_history s (ne_loop_of_call hc)).1
  have hle : budget (storeStep s e) ≤ s.log.advances + 23 := by
    have := stepsLeft_le (storeStep s e)
    unfold budget
    omega
  obtain ⟨hrep, hbudget⟩ := turns_diligent 23 (h.step e) (hle.trans_lt hadv)
  refine ⟨⟨hc, hrep, (List.length_replicate ..).ge⟩, ?_⟩
  have : (order s (attend e)).log.advances ≤ budget (order s (attend e)) := Nat.le_add_right _ _
  exact this.trans (hbudget.trans hle)

/-- **A session with such a soft device.** -/
theorem attended_all (es : List StoreEvent) : ∀ {s : Store}, Between s →
    (∀ e ∈ es, (callOf e).isSome) → s.log.advances + 23 * es.length < 2 ^ 26 - 1 →
    Runs.Each order Attended s (es.map attend) ∧
      (Runs.run order s (es.map attend)).log.advances ≤ s.log.advances + 23 * es.length := by
  induction es with
  | nil => exact fun _ _ _ => ⟨trivial, Nat.le_add_right _ _⟩
  | cons e es ih =>
    intro s h hcalls hadv
    rw [List.length_cons] at hadv ⊢
    obtain ⟨hatt, hle⟩ := attended_attend (hcalls e (List.mem_cons_self ..)) h (by omega)
    obtain ⟨hrest, hle'⟩ := ih (h.order (attend e))
      (fun e he => hcalls e (List.mem_cons_of_mem _ he)) (by omega)
    exact ⟨⟨hatt, hrest⟩, hle'.trans (by omega)⟩

/-- Such a session asks for no save. -/
theorem attend_ne_save {es : List StoreEvent} (hcalls : ∀ e ∈ es, (callOf e).isSome) :
    ∀ e ∈ (es.map attend).flatMap Order.events, ∀ f, e ≠ .save f := by
  intro e he f
  rintro rfl
  obtain ⟨o, ho, he⟩ := List.mem_flatMap.1 he
  obtain ⟨e, hmem, rfl⟩ := List.mem_map.1 ho
  rcases List.mem_cons.1 he with he | he
  · have hsome := hcalls e hmem
    rw [show e = .save f from he.symm] at hsome
    cases hsome
  · obtain ⟨ds, -, he⟩ := List.mem_flatMap.1 he
    rcases List.mem_append.1 he with he | he
    · obtain ⟨d, -, heq⟩ := List.mem_map.1 he
      cases heq
    · cases List.mem_singleton.1 he

end Diligent

/-! ## Nothing but parts of an update -/

/-- No save is asked for, or under way. -/
structure SaveFree (s : Store) : Prop where
  config : s.opFlag.config = false
  state : s.state = .idle ∨ (s.state = .writing ∧ s.savedState = .idle)

section SaveFree

variable {s s' : Store}

theorem saveFree_handed {r : Log × Bool} (hconfig : s.opFlag.config = false)
    (hsaved : s.savedState = .idle) : SaveFree (handed r s) := by
  refine ⟨hconfig, ?_⟩
  by_cases hr : r.2 = true
  · exact Or.inr ⟨if_pos hr, hsaved⟩
  · exact Or.inl ((if_neg hr).trans hsaved)

/-- **A round without saves.** -/
theorem SaveFree.round (h : SaveFree s) (hround : Round s s') : SaveFree s' ∧
    ∃ new, s'.log.words = s.log.words ++ new ∧ ∀ ws ∈ new, IsPart ws := by
  have hno : ∀ st : State, st ≠ .idle → st ≠ .writing → s.state ≠ st := by
    intro st h₁ h₂ hs
    rcases h.state with h' | ⟨h', -⟩
    · exact h₁ (hs.symm.trans h')
    · exact h₂ (hs.symm.trans h')
  have hflag : ¬ s.opFlag.config = true := by
    rw [h.config]
    exact Bool.false_ne_true
  cases hround with
  | init0 hs => exact absurd hs (hno _ State.noConfusion State.noConfusion)
  | slot _ hc => exact absurd hc.1 hflag
  | full _ hc => exact absurd hc.1 hflag
  | part p =>
    obtain ⟨-, -, -, hw⟩ := appendRecord_kept p.type (p.fields s.log.staging.su) s.log
    refine ⟨saveFree_handed ?_ rfl, _, hw, fun ws hws => ?_⟩
    · have hsame : (p.clear s.opFlag).config = s.opFlag.config := by cases p <;> rfl
      exact hsame.trans h.config
    · rw [List.mem_singleton.1 hws]
      exact p.isPart _ _
  | go hs =>
    obtain ⟨-, -, -, hw⟩ := wrGo_kept s.log
    have hsaved : s.savedState = .idle := by
      rcases h.state with h' | ⟨-, h'⟩
      · rw [hs] at h'
        cases h'
      · exact h'
    exact ⟨saveFree_handed h.config hsaved, [], hw.trans (List.append_nil _).symm,
      fun _ h => absurd h List.not_mem_nil⟩
  | erase hs => exact absurd hs (hno _ State.noConfusion State.noConfusion)
  | rewrite hs => exact absurd hs (hno _ State.noConfusion State.noConfusion)
  | saved hs => exact absurd hs (hno _ State.noConfusion State.noConfusion)

/-- **Any event but a save.** -/
theorem SaveFree.step (hrest : Resting s) (h : SaveFree s) {e : StoreEvent}
    (he : ∀ f, e ≠ .save f) :
    SaveFree (storeStep s e) ∧ ∃ new, (storeStep s e).log.words = s.log.words ++ new ∧
      ∀ ws ∈ new, IsPart ws := by
  by_cases hloop : e = .loop
  · subst hloop
    refine (@storeSuperLoop_inv (fun s' => Resting s' ∧ SaveFree s' ∧
      ∃ new, s'.log.words = s.log.words ++ new ∧ ∀ ws ∈ new, IsPart ws) (fun _ h => h.1)
      (fun s₁ s₂ h hround => ?_) _ ⟨hrest, h, [], (List.append_nil _).symm,
        fun _ h => absurd h List.not_mem_nil⟩).2
    obtain ⟨hrest₁, hquiet₁, new₁, hw₁, hn₁⟩ := h
    obtain ⟨hquiet₂, new₂, hw₂, hn₂⟩ := hquiet₁.round hround
    refine ⟨hround.resting hrest₁, hquiet₂, new₁ ++ new₂, ?_, fun ws hws => ?_⟩
    · rw [hw₂, hw₁, List.append_assoc]
    · exact (List.mem_append.1 hws).elim (hn₁ ws) (hn₂ ws)
  · refine ⟨?_, [], (words_event hloop).trans (List.append_nil _).symm,
      fun _ h => absurd h List.not_mem_nil⟩
    cases e with
    | loop => exact absurd rfl hloop
    | save f => exact absurd rfl (he f)
    | device | tick | change | factory | info | chunk | exec => exact ⟨h.config, h.state⟩

theorem saveFree_run (es : List StoreEvent) : ∀ {s : Store}, Resting s → SaveFree s →
    (∀ e ∈ es, ∀ f, e ≠ .save f) → ∃ new,
      (Runs.run storeStep s es).log.words = s.log.words ++ new ∧ ∀ ws ∈ new, IsPart ws := by
  induction es with
  | nil =>
    exact fun _ _ _ => ⟨[], (List.append_nil _).symm, fun _ h => absurd h List.not_mem_nil⟩
  | cons e es ih =>
    intro s hrest hquiet hes
    obtain ⟨hquiet₁, new₁, hw₁, hn₁⟩ := hquiet.step hrest (hes e (List.mem_cons_self ..))
    obtain ⟨new₂, hw₂, hn₂⟩ := ih (hrest.step e).1 hquiet₁
      fun e he => hes e (List.mem_cons_of_mem _ he)
    refine ⟨new₁ ++ new₂, ?_, fun ws hws => ?_⟩
    · rw [Runs.run_cons, hw₂, hw₁, List.append_assoc]
    · exact (List.mem_append.1 hws).elim (hn₁ ws) (hn₂ ws)

/-- The first boot finds nothing to do. -/
theorem first_boot {flash : ℕ → Word} (h : Erased flash) :
    AtRest (storeStep (Store.first flash) .loop) ∧
      SaveFree (storeStep (Store.first flash) .loop) := by
  obtain ⟨b, hinit⟩ := init0_eq (Store.first flash)
  have hdisk : Disk emptyTape [] (Store.first flash).log.flash :=
    disk_empty fun a h₁ h₂ => h a h₁ (by simp only [configStart, storeEnd] at *; omega)
  have hnone : rawRecords storeRegion (Store.first flash).log.flash = [] := hdisk.rawRecords_eq
  have hflags : (storeStep (Store.first flash) .loop).opFlag = ⟨false, false, false, false⟩ := by
    change (App.init0 (Store.first flash)).opFlag = _
    rw [hinit, hnone]
    rfl
  have hstate : (storeStep (Store.first flash) .loop).state = .idle := rfl
  refine ⟨⟨hstate, fun hdue => ?_, fun p => ?_⟩, ⟨?_, Or.inl hstate⟩⟩
  · have := hdue.1
    rw [hflags] at this
    cases this
  · rw [hflags]
    cases p <;> rfl
  · rw [hflags]

end SaveFree

end App

end AntTracer
