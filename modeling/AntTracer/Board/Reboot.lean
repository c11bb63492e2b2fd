import AntTracer.Debug.Printf
import AntTracer.Time.Callouts

/-!
# Rebooting

`reboot` makes its argument a time, `Reboot` puts the reboot timer on the
callout list, and its callback resets the system, or tries again when a
configuration is being saved. A time of zero cancels, and a `reboot 0` has the
time of day instead; and times are words, so that one behind the last comes
out early. `reboot_honoured` says that without such commands the system is
reset in time in every run, and `exists_bad_reset` that it need not be with
one.
-/

namespace AntTracer

namespace Board

open Debug Time

/-! ## The source -/

/-- The callouts of the program. -/
inductive Callout
  | rebootTimer
  deriving DecidableEq

/-- Their callback functions. -/
inductive Callback
  | kickTheBucket

/-- What the callback uses of the rest: the time of day, whether a
configuration is being saved, `ktbCounter`, and whether the system was reset. -/
structure World where
  tod0 : Word
  configSaving : Bool := false
  ktbCounter : ℕ := 0
  reset : Bool := false

/-- The data pointers of the callouts are all null. -/
abbrev System := Tempus Callout Callback Unit World

/-- `Future`. -/
def future (secs : Word) (w : World) : Word := w.tod0 + secs

/-- `ConfigIsDone`. -/
def configIsDone (w : World) : Bool := !w.configSaving

/-- `kickTheBucket`. -/
def kickTheBucket (timer : Callout) (w : World) : List (Call Callout Callback Unit) × World :=
  if configIsDone w ∨ w.ktbCounter ≥ 3 then ([], { w with reset := true })
  else
    let w := { w with configSaving := true, ktbCounter := w.ktbCounter + 1 }
    ([.callout timer (future 3#32 w)], w)

/-- What a callout does. No callout has a flag to set. -/
def callbacks : Callbacks Callout Callback Unit World where
  setVar := fun _ w => w
  callback := fun
    | .kickTheBucket => fun tp s => kickTheBucket tp s.world

/-- `Reboot`. -/
def reboot (tod0 : Word) (s : System) : Option System :=
  let minResetDelay := future 3#32 s.world
  if tod0 = 0#32 then tempusCallout .rebootTimer 0#32 s
  else
    let tod0 := if tod0 < minResetDelay then minResetDelay else tod0
    tempusCalloutFunc .rebootTimer tod0 (some .kickTheBucket) () () s

/-- The loop of `GetDecimal`. -/
def readDigits : List Byte → Word → Word
  | [], num => num
  | c :: sp, num => if IsDigit c then readDigits sp (num * 10#32 + (int c - int (ch '0'))) else num

/-- `GetDecimal`. -/
def getDecimal (sp : List Byte) : Word :=
  let neg := decide (sp.head? = some (ch '-'))
  let sp := if sp.head? = some (ch '-') ∨ sp.head? = some (ch '+') then sp.tail else sp
  let num := readDigits sp 0#32
  if neg then -num else num

/-- The time that `rebootCommand` asks for. -/
def rebootTime (arg : Option CString) (w : World) : Word :=
  match arg with
  | none => future 0#32 w
  | some a => future (getDecimal a.chars) w

/-- `rebootCommand`. -/
def rebootCommand (arg : Option CString) (s : System) : Option System :=
  reboot (rebootTime arg s.world) s

/-! ## Requests -/

/-- The number that digits write. -/
def digits (sp : List Byte) : ℤ :=
  (sp.takeWhile (IsDigit ·)).foldl (fun n c => n * 10 + (c - ch '0').toNat) 0

/-- The number that a text begins with. -/
def decimal (sp : List Byte) : ℤ :=
  if sp.head? = some (ch '-') then -digits sp.tail
  else if sp.head? = some (ch '+') then digits sp.tail
  else digits sp

/-- A `reboot 0`. -/
def Cancels (arg : Option CString) : Prop := ∃ a ∈ arg, decimal a.chars = 0

/-- How many seconds a command has to wait. -/
def delay (arg : Option CString) : ℤ := max 3 (arg.elim 0 fun a => decimal a.chars)

/-- A request: the time of day it was made, and its argument. -/
abbrev Request := Word × Option CString

/-- A reset at this time is what the latest request is for. -/
def Honours (tod0 : Word) (last : Option Request) : Prop :=
  ∃ r ∈ last, ¬ Cancels r.2 ∧ (r.1.toNat : ℤ) + delay r.2 ≤ tod0.toNat

/-- A command that can be honoured: it is no `reboot 0`, and its time is no
later than the last word; or the time is zero, and it cancels after all. -/
def Sane (arg : Option CString) (w : World) : Prop :=
  ¬ Cancels arg ∧ (rebootTime arg w = 0#32 ∨ (w.tod0.toNat : ℤ) + delay arg < 2 ^ 32)

/-! ## Runs -/

/-- **The runs of the system**, up to its reset, each with the latest request.
Commands come while `TempusMagnaCirculi` is not running; the time of day goes
on, without wrapping, and configurations are saved at any time. `C` is a
condition on commands. -/
inductive Run (C : Option CString → World → Prop) :
    Control Callout Callback Unit → System → Option Request → Prop
  | start {s : System} (hhead : s.list.head = none) (htime : ∀ i, s.time i = 0#32)
    (htod : s.world.tod0 ≠ 0#32) (hup : s.world.reset = false) : Run C .idle s none
  /-- a `reboot` command -/
  | command {s s' : System} {last : Option Request} (arg : Option CString)
    (h : Run C .idle s last) (hup : s.world.reset = false) (hC : C arg s.world)
    (hc : rebootCommand arg s = some s') : Run C .idle s' (some (s.world.tod0, arg))
  /-- time goes by -/
  | advance {c : Control Callout Callback Unit} {s : System} {last : Option Request} (secs : ℕ)
    (h : Run C c s last) (hup : s.world.reset = false)
    (hwrap : s.world.tod0.toNat + secs < 2 ^ 32) :
    Run C c { s with world := { s.world with tod0 := s.world.tod0 + BitVec.ofNat 32 secs } } last
  /-- a configuration is being saved, or it is done -/
  | config {c : Control Callout Callback Unit} {s : System} {last : Option Request}
    (saving : Bool) (h : Run C c s last) (hup : s.world.reset = false) :
    Run C c { s with world := { s.world with configSaving := saving } } last
  /-- `TempusMagnaCirculi` is called -/
  | enter {s : System} {last : Option Request} (h : Run C .idle s last)
    (hup : s.world.reset = false) : Run C (.loop s.world.tod0) s last
  /-- a callout is due, and its callback runs -/
  | fire {s : System} {last : Option Request} {tod : Word} {tp : Callout}
    (h : Run C (.loop tod) s last) (hup : s.world.reset = false) (hdue : due tod s = some tp) :
    Run C (.callback tod (trigger callbacks tp (takeOff tp s)).1)
      (trigger callbacks tp (takeOff tp s)).2 last
  /-- with a call -/
  | again {s s' : System} {last : Option Request} {tod : Word} {c : Call Callout Callback Unit}
    {cs : List (Call Callout Callback Unit)} (h : Run C (.callback tod (c :: cs)) s last)
    (hup : s.world.reset = false) (hc : c.apply s = some s') : Run C (.callback tod cs) s' last
  /-- and is over -/
  | back {s : System} {last : Option Request} {tod : Word} (h : Run C (.callback tod []) s last)
    (hup : s.world.reset = false) : Run C (.loop tod) s last
  /-- no callout is due -/
  | leave {s : System} {last : Option Request} {tod : Word} (h : Run C (.loop tod) s last)
    (hup : s.world.reset = false) (hdue : due tod s = none) : Run C .idle s last

variable {C : Option CString → World → Prop} {s s' : System} {last : Option Request}
  {arg : Option CString} {hist : List (Event Callout)} {l : List Callout} {t : Word}

/-! ## `GetDecimal` -/

theorem readDigits_eq (sp : List Byte) : ∀ n : ℤ, readDigits sp (BitVec.ofInt 32 n) =
    BitVec.ofInt 32 ((sp.takeWhile (IsDigit ·)).foldl
      (fun n c => n * 10 + (c - ch '0').toNat) n) := by
  induction sp with
  | nil => exact fun n => rfl
  | cons c sp ih =>
    intro n
    rw [readDigits]
    by_cases hc : IsDigit c
    · have hdigit : int c - int (ch '0') = BitVec.ofInt 32 (c - ch '0').toNat := by
        have hlow : (ch '0').toNat ≤ c.toNat := hc.1
        have hzero : (ch '0').toNat = 48 := rfl
        have hlt := c.isLt
        refine BitVec.eq_of_toNat_eq ?_
        rw [int, int, BitVec.toNat_sub, BitVec.toNat_setWidth, BitVec.toNat_setWidth,
          BitVec.ofInt_natCast, BitVec.toNat_ofNat, BitVec.toNat_sub]
        omega
      rw [if_pos hc, List.takeWhile_cons_of_pos (by simpa using hc), List.foldl_cons, ← ih,
        BitVec.ofInt_add, BitVec.ofInt_mul, hdigit]
      rfl
    · rw [if_neg hc, List.takeWhile_cons_of_neg (by simpa using hc)]
      rfl

/-- **What `GetDecimal` reads** is the number, as a word. -/
theorem getDecimal_eq (sp : List Byte) : getDecimal sp = BitVec.ofInt 32 (decimal sp) := by
  have hdigits : ∀ sp, readDigits sp 0#32 = BitVec.ofInt 32 (digits sp) :=
    fun sp => readDigits_eq sp 0
  unfold getDecimal decimal
  by_cases hneg : sp.head? = some (ch '-')
  · simp only [hneg, true_or, if_true, decide_true, hdigits, BitVec.ofInt_neg]
  · by_cases hpos : sp.head? = some (ch '+')
    · have hne : ¬ some (ch '+') = some (ch '-') := by decide
      simp only [hpos, hne, or_true, if_true, if_false, decide_false, Bool.false_eq_true, hdigits]
    · simp only [hneg, hpos, or_self, if_false, decide_false, Bool.false_eq_true, hdigits]

/-! ## One command -/

/-- The time that `Reboot` sets. -/
def armTime (t : Word) (w : World) : Word :=
  if t = 0#32 then 0#32 else if t < future 3#32 w then future 3#32 w else t

/-- **What `Reboot` does** to the list, and what it leaves alone. -/
theorem reboot_spec (h : CalloutList s hist l) (t : Word) : ∃ s' l', reboot t s = some s' ∧
    CalloutList s' (.scheduled .rebootTimer (armTime t s.world) :: hist) l' ∧
      s'.world = s.world ∧ (t ≠ 0#32 → s'.func .rebootTimer = some .kickTheBucket) := by
  by_cases hzero : t = 0#32
  · obtain ⟨s', l', hs', hl'⟩ := h.apply (.callout .rebootTimer 0#32)
    have harm : armTime t s.world = 0#32 := if_pos hzero
    refine ⟨s', l', (if_pos hzero).trans hs', ?_, Call.apply_world hs',
      fun hne => absurd hzero hne⟩
    rw [harm]
    exact hl'
  · have harm : armTime t s.world =
        if t < future 3#32 s.world then future 3#32 s.world else t := if_neg hzero
    obtain ⟨s', l', hs', hl'⟩ := h.apply
      (.calloutFunc .rebootTimer (armTime t s.world) (some .kickTheBucket) () ())
    have hreboot : reboot t s = some s' := by
      rw [reboot, if_neg hzero, ← harm]
      exact hs'
    refine ⟨s', l', hreboot, hl', Call.apply_world hs', fun _ => ?_⟩
    rw [(tempusCallout_fields hs').2.1]
    show Function.update s.func .rebootTimer (some .kickTheBucket) .rebootTimer = _
    rw [Function.update_self]

/-- The time is none of those before the delay is over. -/
theorem toNat_armTime {w : World} (hne : t ≠ 0#32) :
    (armTime t w).toNat = max t.toNat (future 3#32 w).toNat := by
  rw [armTime, if_neg hne]
  split
  · rename_i hlt
    rw [BitVec.lt_def] at hlt
    omega
  · rename_i hlt
    rw [BitVec.lt_def] at hlt
    omega

/-- A command that can be honoured sets a time that is. -/
theorem armTime_ge {w : World} (h : Sane arg w) (hne : rebootTime arg w ≠ 0#32) :
    (w.tod0.toNat : ℤ) + delay arg ≤ (armTime (rebootTime arg w) w).toNat := by
  have hlt := h.2.resolve_left hne
  have hthree : (future 3#32 w).toNat = w.tod0.toNat + 3 := by
    have hle : 3 ≤ delay arg := le_max_left ..
    rw [future, BitVec.toNat_add, BitVec.toNat_ofNat, Nat.mod_eq_of_lt (a := 3) (by decide),
      Nat.mod_eq_of_lt (by omega)]
  rw [toNat_armTime hne, hthree]
  cases arg with
  | none =>
    have hdelay : delay none = 3 := rfl
    omega
  | some a =>
    have hdelay : delay (some a) = max 3 (decimal a.chars) := rfl
    by_cases hle : decimal a.chars ≤ 3
    · omega
    · -- the argument is a number of seconds, and the time does not wrap
      have htime : (rebootTime (some a) w).toNat = w.tod0.toNat + (decimal a.chars).toNat := by
        rw [rebootTime, future, getDecimal_eq, BitVec.toNat_add, BitVec.toNat_ofInt]
        omega
      omega

/-! ## The invariant -/

/-- What is on the list is for the latest request, or its time has come. -/
def Pending (s : System) (last : Option Request) : Prop :=
  ∃ r ∈ last, ¬ Cancels r.2 ∧ ((r.1.toNat : ℤ) + delay r.2 ≤ (s.time .rebootTimer).toNat ∨
    (r.1.toNat : ℤ) + delay r.2 ≤ s.world.tod0.toNat)

/-- What is known inside of `TempusMagnaCirculi`: its time is no later than
the clock's, and a callback makes calls when the time has come. -/
def Inside : Control Callout Callback Unit → World → Option Request → Prop
  | .idle, _, _ => True
  | .loop tod, w, _ => tod ≤ w.tod0
  | .callback tod cs, w, last => tod ≤ w.tod0 ∧ (cs ≠ [] → Honours w.tod0 last)

/-- **The invariant** of the runs. -/
structure Inv (c : Control Callout Callback Unit) (s : System) (last : Option Request) : Prop where
  list : ∃ hist l, CalloutList s hist l ∧ (Listed hist .rebootTimer → Pending s last)
  reset : s.world.reset = true → Honours s.world.tod0 last
  inside : Inside c s.world last

theorem Honours.mono {tod tod' : Word} (h : Honours tod last) (hle : tod ≤ tod') :
    Honours tod' last := by
  obtain ⟨r, hr, hnot, hdelay⟩ := h
  rw [BitVec.le_def] at hle
  exact ⟨r, hr, hnot, by omega⟩

theorem Honours.pending (h : Honours s.world.tod0 last) : Pending s last := by
  obtain ⟨r, hr, hnot, hdelay⟩ := h
  exact ⟨r, hr, hnot, Or.inr hdelay⟩

/-- A command that can be honoured will be. -/
theorem Inv.command (h : Inv .idle s last) (hup : s.world.reset = false) (hC : Sane arg s.world)
    (hc : rebootCommand arg s = some s') : Inv .idle s' (some (s.world.tod0, arg)) := by
  obtain ⟨hist, l, hl, -⟩ := h.list
  obtain ⟨s₁, l', hs₁, hl', hworld, -⟩ := reboot_spec hl (rebootTime arg s.world)
  obtain rfl : s₁ = s' := Option.some.inj (hs₁.symm.trans hc)
  refine ⟨⟨_, l', hl', fun hlisted => ?_⟩, fun hreset => ?_, trivial⟩
  · have hne : rebootTime arg s.world ≠ 0#32 := by
      intro hzero
      refine (hlisted : _ ≠ _) ?_
      rw [hzero]
      rfl
    refine ⟨_, rfl, hC.1, Or.inl ?_⟩
    rw [hl'.time, lastTime, if_pos rfl]
    exact armTime_ge hC hne
  · rw [hworld, hup] at hreset
    cases hreset

/-- Time that goes by makes no request early. -/
theorem Inv.world {c : Control Callout Callback Unit} (h : Inv c s last) {w : World}
    (hw : w.reset = false) (hle : s.world.tod0 ≤ w.tod0) : Inv c { s with world := w } last := by
  obtain ⟨⟨hist, l, hl, hpending⟩, -, hinside⟩ := h
  refine ⟨⟨hist, l, hl.congr rfl rfl, fun hlisted => ?_⟩, fun hreset => ?_, ?_⟩
  · obtain ⟨r, hr, hnot, hdelay⟩ := hpending hlisted
    rw [BitVec.le_def] at hle
    exact ⟨r, hr, hnot, hdelay.imp_right fun hd => by show _ ≤ (w.tod0.toNat : ℤ); omega⟩
  · exact absurd (hreset.symm.trans hw) (by decide)
  · cases c with
    | idle => trivial
    | loop tod => exact BitVec.le_trans hinside hle
    | callback tod cs =>
      exact ⟨BitVec.le_trans hinside.1 hle, fun hcs => (hinside.2 hcs).mono hle⟩

/-- The callback reads the clock, and does not set it. -/
theorem trigger_tod0 (tp : Callout) (s : System) :
    (trigger callbacks tp s).2.world.tod0 = s.world.tod0 := by
  unfold trigger
  cases s.func tp with
  | none => rfl
  | some f =>
    cases f
    show (kickTheBucket tp s.world).2.tod0 = s.world.tod0
    unfold kickTheBucket
    split
    · rfl
    · rfl

/-- **A callout that is due** is for the latest request, and its time has
come. -/
theorem Inv.honours {tod : Word} {tp : Callout} (h : Inv (.loop tod) s last)
    (hdue : due tod s = some tp) : Honours s.world.tod0 last := by
  obtain ⟨⟨hist, l, hl, hpending⟩, -, hinside⟩ := h
  obtain ⟨htime, l', rfl, -⟩ := hl.fire callbacks hdue
  cases tp
  obtain ⟨r, hr, hnot, hdelay⟩ := hpending ((hl.mem_iff _).1 List.mem_cons_self)
  rw [← hl.time] at htime
  have hle := BitVec.le_trans htime hinside
  rw [BitVec.le_def] at hle
  exact ⟨r, hr, hnot, by omega⟩

theorem Inv.fire {tod : Word} {tp : Callout} (h : Inv (.loop tod) s last)
    (hdue : due tod s = some tp) :
    Inv (.callback tod (trigger callbacks tp (takeOff tp s)).1)
      (trigger callbacks tp (takeOff tp s)).2 last := by
  have hhonours := h.honours hdue
  obtain ⟨⟨hist, l, hl, -⟩, -, hinside⟩ := h
  obtain ⟨-, l', -, hl'⟩ := hl.fire callbacks hdue
  have htod : (trigger callbacks tp (takeOff tp s)).2.world.tod0 = s.world.tod0 :=
    trigger_tod0 tp (takeOff tp s)
  refine ⟨⟨_, l', hl', fun hlisted => ?_⟩, fun _ => ?_, ?_, fun _ => ?_⟩
  · cases tp
    exact absurd rfl hlisted.1
  · rwa [htod]
  · rw [htod]
    exact hinside
  · rwa [htod]

/-- The timer that a callback puts on the list is one whose time has come. -/
theorem Inv.again {tod : Word} {c : Call Callout Callback Unit}
    {cs : List (Call Callout Callback Unit)} (h : Inv (.callback tod (c :: cs)) s last)
    (hc : c.apply s = some s') : Inv (.callback tod cs) s' last := by
  obtain ⟨⟨hist, l, hl, -⟩, hreset, htod, hcalls⟩ := h
  have hhonours := hcalls (List.cons_ne_nil c cs)
  have hworld := Call.apply_world hc
  obtain ⟨l', hl'⟩ := hl.called hc
  rw [← hworld] at hreset htod hhonours
  exact ⟨⟨_, l', hl', fun _ => hhonours.pending⟩, hreset, htod, fun _ => hhonours⟩

/-- **The invariant holds** in every run whose commands can be honoured. -/
theorem Run.inv {c : Control Callout Callback Unit} (h : Run Sane c s last) : Inv c s last := by
  induction h with
  | start hhead htime htod hup =>
    refine ⟨⟨[], [], ⟨hhead, List.nodup_nil, htime, List.Pairwise.nil, fun i => ?_⟩, ?_⟩, ?_,
      trivial⟩
    · exact iff_of_false List.not_mem_nil id
    · exact fun hlisted => hlisted.elim
    · exact fun hreset => absurd (hreset.symm.trans hup) (by decide)
  | command arg _ hup hC hc ih => exact ih.command hup hC hc
  | advance secs _ hup hwrap ih =>
    refine ih.world hup ?_
    rw [BitVec.le_def, BitVec.toNat_add, BitVec.toNat_ofNat]
    omega
  | config saving _ hup ih => exact ih.world hup (BitVec.le_refl _)
  | enter _ hup ih => exact ⟨ih.list, ih.reset, BitVec.le_refl _⟩
  | fire _ hup hdue ih => exact ih.fire hdue
  | again _ hup hc ih => exact ih.again hc
  | back _ hup ih => exact ⟨ih.list, ih.reset, ih.inside.1⟩
  | leave _ hup hdue ih => exact ⟨ih.list, ih.reset, trivial⟩

/-- **Requests are honoured.** In every run whose commands all can be honoured
a reset comes after a command, three seconds or as many as it asked for after
the latest one, and never while that is a `reboot 0`. -/
theorem reboot_honoured {c : Control Callout Callback Unit} (h : Run Sane c s last)
    (hreset : s.world.reset = true) : Honours s.world.tod0 last := h.inv.reset hreset

/-! ## Other commands -/

/-- In every run the list is sound, and the time of day is not zero. -/
theorem Run.sound {c : Control Callout Callback Unit} (h : Run C c s last) :
    (∃ hist l, CalloutList s hist l) ∧ s.world.tod0 ≠ 0#32 := by
  induction h with
  | start hhead htime htod hup =>
    exact ⟨⟨[], [], hhead, List.nodup_nil, htime, List.Pairwise.nil,
      fun i => iff_of_false List.not_mem_nil id⟩, htod⟩
  | command arg _ hup hC hc ih =>
    obtain ⟨⟨hist, l, hl⟩, htod⟩ := ih
    obtain ⟨s₁, l', hs₁, hl', hworld, -⟩ := reboot_spec hl (rebootTime arg _)
    obtain rfl := Option.some.inj (hs₁.symm.trans hc)
    exact ⟨⟨_, l', hl'⟩, hworld ▸ htod⟩
  | advance secs _ hup hwrap ih =>
    obtain ⟨⟨hist, l, hl⟩, htod⟩ := ih
    refine ⟨⟨hist, l, hl.congr rfl rfl⟩, fun hzero => htod ?_⟩
    have hsum := congrArg BitVec.toNat hzero
    simp only [BitVec.toNat_add, BitVec.toNat_ofNat] at hsum
    refine BitVec.eq_of_toNat_eq ?_
    rw [BitVec.toNat_zero]
    omega
  | config saving _ hup ih =>
    obtain ⟨⟨hist, l, hl⟩, htod⟩ := ih
    exact ⟨⟨hist, l, hl.congr rfl rfl⟩, htod⟩
  | enter _ hup ih => exact ih
  | fire _ hup hdue ih =>
    obtain ⟨⟨hist, l, hl⟩, htod⟩ := ih
    obtain ⟨-, l', -, hl'⟩ := hl.fire callbacks hdue
    refine ⟨⟨_, l', hl'⟩, ?_⟩
    rw [trigger_tod0]
    exact htod
  | again _ hup hc ih =>
    obtain ⟨⟨hist, l, hl⟩, htod⟩ := ih
    obtain ⟨l', hl'⟩ := hl.called hc
    rw [Call.apply_world hc]
    exact ⟨⟨_, l', hl'⟩, htod⟩
  | back _ hup ih => exact ih
  | leave _ hup hdue ih => exact ih

/-- **What is on the list resets the system** when its time comes, if no
configuration is being saved then. -/
theorem Run.reset_of_listed (h : Run C .idle s last) (hup : s.world.reset = false)
    (hl : CalloutList s hist l) (hlisted : Listed hist .rebootTimer)
    (hfunc : s.func .rebootTimer = some .kickTheBucket) :
    ∃ c s', Run C c s' last ∧ s'.world.reset = true := by
  have hsum : s.world.tod0.toNat + ((s.time .rebootTimer).toNat - s.world.tod0.toNat) =
      max s.world.tod0.toNat (s.time .rebootTimer).toNat := by omega
  have hlt : max s.world.tod0.toNat (s.time .rebootTimer).toNat < 2 ^ 32 :=
    max_lt (BitVec.isLt _) (BitVec.isLt _)
  have hloop := ((h.config false hup).advance _ hup (hsum.trans_lt hlt)).enter hup
  set w : World := { s.world with
    configSaving := false
    tod0 := s.world.tod0 +
      BitVec.ofNat 32 ((s.time .rebootTimer).toNat - s.world.tod0.toNat) } with hw
  have htod : w.tod0.toNat = max s.world.tod0.toNat (s.time .rebootTimer).toNat := by
    rw [hw, BitVec.toNat_add, BitVec.toNat_ofNat]
    omega
  have hl' : CalloutList { s with world := w } hist l := hl.congr rfl rfl
  have hdue : due w.tod0 { s with world := w } = some .rebootTimer := by
    refine (due_eq_some_iff hl').2 ⟨?_, ?_⟩
    · have hmem := (hl.mem_iff _).2 hlisted
      cases l with
      | nil => cases hmem
      | cons i l =>
        cases i
        rfl
    · rw [← hl.time, BitVec.le_def, htod]
      exact le_max_right ..
  have htrigger : trigger callbacks .rebootTimer (takeOff .rebootTimer { s with world := w }) =
      ([], { takeOff .rebootTimer { s with world := w } with
        world := { w with reset := true } }) := by
    have hkick : kickTheBucket .rebootTimer w = ([], { w with reset := true }) :=
      if_pos (Or.inl rfl)
    have hfunc' : (takeOff .rebootTimer { s with world := w }).func .rebootTimer =
        some .kickTheBucket := hfunc
    rw [trigger, hfunc']
    show ((kickTheBucket .rebootTimer w).1, { takeOff .rebootTimer { s with world := w } with
      world := (kickTheBucket .rebootTimer w).2 }) = _
    rw [hkick]
  have hfire := hloop.fire hup hdue
  rw [htrigger] at hfire
  exact ⟨_, _, hfire, rfl⟩

/-- A command whose time is not zero can be followed by a reset. -/
theorem Run.reset_after (h : Run C .idle s last) (hup : s.world.reset = false)
    (hC : C arg s.world) (hne : rebootTime arg s.world ≠ 0#32) :
    ∃ c s', Run C c s' (some (s.world.tod0, arg)) ∧ s'.world.reset = true := by
  obtain ⟨⟨hist, l, hl⟩, -⟩ := h.sound
  obtain ⟨s₁, l', hs₁, hl', hworld, hfunc⟩ := reboot_spec hl (rebootTime arg s.world)
  have hlisted : Listed (.scheduled .rebootTimer (armTime (rebootTime arg s.world) s.world) ::
      hist) .rebootTimer := by
    rw [Listed, if_pos rfl]
    intro hzero
    have hmax := toNat_armTime (w := s.world) hne
    rw [hzero, BitVec.toNat_zero] at hmax
    refine hne (BitVec.eq_of_toNat_eq ?_)
    rw [BitVec.toNat_zero]
    omega
  have hup₁ : s₁.world.reset = false := by rw [hworld, hup]
  exact (h.command arg hup hC hs₁).reset_of_listed hup₁ hl' hlisted (hfunc hne)

/-- **A command that cannot be honoured** can be followed by a reset that is
not what it is for. -/
theorem exists_bad_reset (h : Run C .idle s last) (hup : s.world.reset = false)
    (hC : C arg s.world) (hbad : ¬ Sane arg s.world) :
    ∃ c s', Run C c s' (some (s.world.tod0, arg)) ∧ s'.world.reset = true ∧
      ¬ Honours s'.world.tod0 (some (s.world.tod0, arg)) := by
  have hne : rebootTime arg s.world ≠ 0#32 := by
    intro hzero
    have hcancels : Cancels arg := by
      by_contra hnot
      exact hbad ⟨hnot, Or.inl hzero⟩
    obtain ⟨a, rfl, ha⟩ := hcancels
    rw [rebootTime, future, getDecimal_eq, ha] at hzero
    exact h.sound.2 (BitVec.add_zero s.world.tod0 ▸ hzero)
  obtain ⟨c, s', hrun, hreset⟩ := h.reset_after hup hC hne
  refine ⟨c, s', hrun, hreset, ?_⟩
  rintro ⟨r, hr, hnot, hle⟩
  obtain rfl := Option.some.inj hr
  have hover : ¬ ((s.world.tod0.toNat : ℤ) + delay arg < 2 ^ 32) := fun hlt =>
    hbad ⟨hnot, Or.inr hlt⟩
  have hlt := s'.world.tod0.isLt
  simp only at hle
  omega

/-! ## Two commands -/

/-- The system one second after the start. -/
def secondOne : System :=
  ⟨⟨none, fun _ => none⟩, fun _ => 0#32, fun _ => none, fun _ _ => (), { tod0 := 1#32 }⟩

theorem run_secondOne : Run C .idle secondOne none := .start rfl (fun _ => rfl) (by decide) rfl

/-- A `reboot 0`, and a reset. -/
theorem reboot_zero : let zero : CString := ⟨[ch '0'], by decide⟩
    Cancels (some zero) ∧ ∃ c s, Run (fun _ _ => True) c s (some (1#32, some zero)) ∧
      s.world.reset = true ∧ ¬ Honours s.world.tod0 (some (1#32, some zero)) := by
  intro zero
  have hcancels : Cancels (some zero) := ⟨zero, rfl, by decide⟩
  exact ⟨hcancels, exists_bad_reset run_secondOne rfl trivial fun h => h.1 hcancels⟩

/-- A `reboot`, and a reset. -/
theorem reboot_soon : ∃ c s, Run Sane c s (some (1#32, none)) ∧ s.world.reset = true ∧
    Honours s.world.tod0 (some (1#32, none)) := by
  have hsane : Sane none secondOne.world := by
    refine ⟨?_, Or.inr (by decide)⟩
    rintro ⟨a, ha, -⟩
    cases ha
  obtain ⟨c, s, hrun, hreset⟩ := run_secondOne.reset_after rfl hsane (by decide)
  exact ⟨c, s, hrun, hreset, reboot_honoured hrun hreset⟩

end Board

end AntTracer
