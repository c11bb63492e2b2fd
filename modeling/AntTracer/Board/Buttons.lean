import AntTracer.Library.Runs
import AntTracer.Record.Word

/-!
# Buttons and LEDs

`BoardLoop` samples the buttons of the board 40 times per second. The counter
of a button counts pressed samples while the button is up and released ones
while it is down, two of which should change it. But the comparison for a
release is with 2 and not with -2, so that one released sample is enough, and
a count that has begun is kept over released samples. `debounced_iff` has the
samples for which neither shows.
-/

namespace AntTracer

namespace Board

/-! ## The source -/

/-- What the pin tables have for LEDs and buttons. -/
structure Pins where
  led : ℕ → ℤ
  button : ℕ → ℤ

/-- `pinsPCA`. -/
def pinsPCA : Pins where
  led := fun i => [17, 18, 19, 20].getD i (-1)
  button := fun i => [13, 14, 15, 16].getD i (-1)

/-- `pinsRelay2`. -/
def pinsRelay2 : Pins where
  led := fun i => [8, -1, -1, -1].getD i (-1)
  button := fun i => [-1, -1, -1, -1].getD i (-1)

/-- `pcaBoards`, up to its 0. -/
def pcaBoards : List Word :=
  [0xee9136cf#32, 0xd9bf549b#32, 0x0caf5e1a#32, 0x5700cd15#32, 0x96693ea8#32, 0x819271e4#32,
    0x417e990e#32, 0xb18be151#32]

/-- What `whichBoard` finds out: `IsPuck2`, `PinAssign`, `maxLED` and
`maxButton`. -/
structure Setup where
  isPuck2 : Bool
  pinAssign : Pins
  maxLED : ℕ
  maxButton : ℕ

/-- `whichBoard`, with the device ID. -/
def whichBoard (devID : Word) : Setup :=
  if devID ∈ pcaBoards then ⟨false, pinsPCA, 4, 4⟩ else ⟨true, pinsRelay2, 1, 0⟩

/-- The variables of `board.c` for LEDs and buttons, and the output register of
the port. -/
structure Panel where
  ledCnt : ℕ → Word := fun _ => 0#32
  button : ℕ → ℤ := fun _ => 0
  buttonCnt : ℕ → ℤ := fun _ => 0
  out : Word := 0#32

/-- A button and its counter. -/
def Panel.state (s : Panel) (i : ℕ) : ℤ × ℤ := (s.button i, s.buttonCnt i)

variable (setup : Setup)

/-- `TouchLED`. -/
def touchLED (n cnt : Word) (s : Panel) : Panel :=
  if n.toNat ≥ setup.maxLED then s
  else
    let cnt := if cnt > 40#32 then 40#32 else cnt
    { s with ledCnt := Function.update s.ledCnt n.toNat cnt }

/-- `ButtonEvent`. -/
def buttonEvent (s : Panel) : Panel × ℕ :=
  match (List.range setup.maxButton).find? fun i => decide (s.button i = 1) with
  | some i => ({ s with button := Function.update s.button i 2 }, i + 1)
  | none => (s, 0)

/-- The bit of a pin. -/
def pinBit (pin : ℤ) : Word := 1#32 <<< pin.toNat

/-- The loop over the LEDs, at `i`. -/
def ledStep (s : Panel) (i : ℕ) : Panel :=
  let x := pinBit (setup.pinAssign.led i)
  if s.ledCnt i > 0#32 then
    { s with out := s.out &&& ~~~x, ledCnt := Function.update s.ledCnt i (s.ledCnt i - 1#32) }
  else { s with out := s.out ||| x }

/-- The button pulls its pin down, of the input register. -/
def pressed (input : Word) (i : ℕ) : Bool :=
  decide (input &&& pinBit (setup.pinAssign.button i) = 0#32)

/-- A sample: what becomes of `button` and `buttonCnt`. -/
def sample (b : Bool) (s : ℤ × ℤ) : ℤ × ℤ :=
  if b ∧ s.1 = 0 then
    let cnt := if s.2 < 0 then 0 else s.2
    let cnt := cnt + 1
    (if cnt ≥ 2 then 1 else s.1, cnt)
  else if ¬ b ∧ s.1 ≠ 0 then
    let cnt := if s.2 > 0 then 0 else s.2
    let cnt := cnt - 1
    (if cnt ≤ 2 then 0 else s.1, cnt)
  else s

/-- The loop over the buttons, at `i`. -/
def buttonStep (input : Word) (s : Panel) (i : ℕ) : Panel :=
  let r := sample (pressed setup input i) (s.state i)
  { s with button := Function.update s.button i r.1
           buttonCnt := Function.update s.buttonCnt i r.2 }

/-- `BoardLoop`, with whether its timer ran out and the input register. -/
def boardLoop (timeout : Bool) (input : Word) (s : Panel) : Panel :=
  if timeout then
    let s := (List.range setup.maxLED).foldl (ledStep setup) s
    (List.range setup.maxButton).foldl (buttonStep setup input) s
  else s

/-- A call of one of the functions. -/
inductive PanelCall where
  | loop (timeout : Bool) (input : Word)
  | event
  | touch (n cnt : Word)

/-- Make a call. -/
def call (s : Panel) : PanelCall → Panel
  | .loop timeout input => boardLoop setup timeout input s
  | .event => (buttonEvent setup s).1
  | .touch n cnt => touchLED setup n cnt s

/-- The panel after some calls. -/
def after (cs : List PanelCall) : Panel := Runs.run (call setup) {} cs

/-! ## Debouncing -/

/-- What a call sees of a button. -/
def seen (i : ℕ) : PanelCall → Option Bool
  | .loop true input => some (pressed setup input i)
  | _ => none

/-- The samples of a button. -/
def samples (i : ℕ) (cs : List PanelCall) : List Bool := cs.filterMap (seen setup i)

/-- The button goes down. -/
def Rises (i : ℕ) (s : Panel) (c : PanelCall) : Prop :=
  s.button i = 0 ∧ (call setup s c).button i ≠ 0

/-- The button goes up. -/
def Falls (i : ℕ) (s : Panel) (c : PanelCall) : Prop :=
  s.button i ≠ 0 ∧ (call setup s c).button i = 0

/-- `ButtonEvent` reports the button. -/
def Reports (i : ℕ) (s : Panel) : PanelCall → Prop
  | .event => (buttonEvent setup s).2 = i + 1
  | _ => False

/-- The call is a sample, the second such in a row. -/
def SecondInRow (i : ℕ) (b : Bool) (cs : List PanelCall) (c : PanelCall) : Prop :=
  seen setup i c = some b ∧ (samples setup i cs).getLast? = some b

/-- **Debouncing**: the button goes down and up at the second sample in a row
only, and is reported once until it goes up. -/
structure Debounced (i : ℕ) (cs : List PanelCall) : Prop where
  rise : ∀ pre c post, cs = pre ++ c :: post → Rises setup i (after setup pre) c →
    SecondInRow setup i true pre c
  fall : ∀ pre c post, cs = pre ++ c :: post → Falls setup i (after setup pre) c →
    SecondInRow setup i false pre c
  once : ∀ pre c mid d post, cs = pre ++ c :: mid ++ d :: post →
    Reports setup i (after setup pre) c → Reports setup i (after setup (pre ++ c :: mid)) d →
    ∃ m₁ e m₂, mid = m₁ ++ e :: m₂ ∧ Falls setup i (after setup (pre ++ c :: m₁)) e

/-- At most one sample is pressed, or from the first that is on all are. -/
def PressedToTheEnd (t : List Bool) : Prop :=
  t.count true ≤ 1 ∨ t.Pairwise fun x y => x = true → y = true

instance (t : List Bool) : Decidable (PressedToTheEnd t) := inferInstanceAs (Decidable (_ ∨ _))

variable {setup} {i : ℕ} {s : Panel} {t : List Bool}

/-! ## One call -/

/-- The loop over the LEDs leaves the buttons alone. -/
theorem ledLoop_button (setup : Setup) (is : List ℕ) (s : Panel) :
    (is.foldl (ledStep setup) s).button = s.button ∧
      (is.foldl (ledStep setup) s).buttonCnt = s.buttonCnt := by
  refine Runs.inv_run (P := fun s' : Panel => s'.button = s.button ∧ s'.buttonCnt = s.buttonCnt)
    (fun s' i h => ?_) ⟨rfl, rfl⟩ is
  unfold ledStep
  split
  · exact h
  · exact h

theorem buttonStep_self (input : Word) (s : Panel) (i : ℕ) :
    (buttonStep setup input s i).state i = sample (pressed setup input i) (s.state i) := by
  unfold buttonStep Panel.state
  simp only [Function.update_self]

theorem buttonStep_ne (input : Word) (s : Panel) {i j : ℕ} (h : i ≠ j) :
    (buttonStep setup input s j).state i = s.state i := by
  unfold buttonStep Panel.state
  simp only [Function.update_of_ne h]

/-- The loop over the buttons samples each of them once. -/
theorem buttonLoop_state (input : Word) (n : ℕ) (s : Panel) :
    ∀ i, ((List.range n).foldl (buttonStep setup input) s).state i =
      if i < n then sample (pressed setup input i) (s.state i) else s.state i := by
  induction n with
  | zero => exact fun i => rfl
  | succ n ih =>
    intro i
    rw [List.range_succ, List.foldl_append, List.foldl_cons, List.foldl_nil]
    by_cases hin : i = n
    · subst hin
      rw [buttonStep_self, ih, if_neg (lt_irrefl i), if_pos (Nat.lt_succ_self i)]
    · rw [buttonStep_ne _ _ hin, ih]
      simp only [show i < n + 1 ↔ i < n by omega]

/-- **A sample** changes the button and its counter. -/
theorem boardLoop_sample (hi : i < setup.maxButton) (input : Word) (s : Panel) :
    (call setup s (.loop true input)).state i =
      sample (pressed setup input i) (s.state i) := by
  obtain ⟨hbutton, hcnt⟩ := ledLoop_button setup (List.range setup.maxLED) s
  rw [call, boardLoop, if_pos rfl, buttonLoop_state, if_pos hi, Panel.state, hbutton, hcnt]
  rfl

theorem button_of_find? {j : ℕ}
    (h : (List.range setup.maxButton).find? (fun i => decide (s.button i = 1)) = some j) :
    s.button j = 1 := by
  simpa using List.find?_some h

/-- A report takes a button that is down for the first time. -/
theorem Reports.button {c : PanelCall} (h : Reports setup i s c) :
    s.button i = 1 ∧ (call setup s c).button i = 2 := by
  cases c with
  | loop timeout input => exact h.elim
  | touch n cnt => exact h.elim
  | event =>
    rw [Reports, buttonEvent] at h
    rw [call, buttonEvent]
    cases hfind : (List.range setup.maxButton).find? fun i => decide (s.button i = 1) with
    | none =>
      rw [hfind] at h
      cases h
    | some j =>
      rw [hfind] at h
      obtain rfl : j = i := Nat.succ.inj h
      exact ⟨button_of_find? hfind, Function.update_self ..⟩

/-- **Any other call** keeps the counter, and the button unless it reports
it. -/
theorem call_of_not_seen {c : PanelCall} (hc : seen setup i c = none) (s : Panel) :
    (call setup s c).buttonCnt i = s.buttonCnt i ∧
      ((call setup s c).button i = s.button i ∨
        s.button i = 1 ∧ (call setup s c).button i = 2) := by
  cases c with
  | loop timeout input =>
    cases timeout with
    | true => cases hc
    | false => exact ⟨rfl, Or.inl rfl⟩
  | touch n cnt =>
    rw [call, touchLED]
    split
    · exact ⟨rfl, Or.inl rfl⟩
    · exact ⟨rfl, Or.inl rfl⟩
  | event =>
    rw [call, buttonEvent]
    cases hfind : (List.range setup.maxButton).find? fun i => decide (s.button i = 1) with
    | none => exact ⟨rfl, Or.inl rfl⟩
    | some j =>
      refine ⟨rfl, ?_⟩
      by_cases hij : i = j
      · subst hij
        exact Or.inr ⟨button_of_find? hfind, Function.update_self ..⟩
      · exact Or.inl (Function.update_of_ne hij ..)

theorem seen_eq_some {c : PanelCall} {b : Bool} (h : seen setup i c = some b) :
    ∃ input, c = .loop true input ∧ pressed setup input i = b := by
  cases c with
  | event => cases h
  | touch n cnt => cases h
  | loop timeout input =>
    cases timeout with
    | false => cases h
    | true => exact ⟨input, rfl, Option.some.inj h⟩

/-- A button that is down stays so while it is pressed, and goes up at the
first released sample. -/
theorem sample_down (b : Bool) {s : ℤ × ℤ} (h : s.1 ≠ 0) :
    (sample b s).1 = if b then s.1 else 0 := by
  unfold sample
  cases b with
  | true => simp [h]
  | false =>
    have hlow : (if s.2 > 0 then 0 else s.2) - 1 ≤ 2 := by split <;> omega
    simp [h, hlow]

/-- A button that is up stays so at a released sample. -/
theorem sample_released_up {s : ℤ × ℤ} (h : s.1 = 0) : sample false s = s := by
  unfold sample
  simp [h]

/-- What was reported stays so until the button goes up. -/
theorem reported_step (hi : i < setup.maxButton) (h : s.button i = 2) (c : PanelCall) :
    (call setup s c).button i = 2 ∨ Falls setup i s c := by
  have hne : s.button i ≠ 0 := by omega
  cases hc : seen setup i c with
  | none =>
    have hkeep := (call_of_not_seen hc s).2
    omega
  | some b =>
    obtain ⟨input, rfl, rfl⟩ := seen_eq_some hc
    have hdown := sample_down (pressed setup input i) (s := s.state i) hne
    rw [← boardLoop_sample hi] at hdown
    cases hb : pressed setup input i with
    | true =>
      rw [hb, if_pos rfl] at hdown
      exact Or.inl (hdown.trans h)
    | false =>
      rw [hb, if_neg Bool.false_ne_true] at hdown
      exact Or.inr ⟨hne, hdown⟩

/-! ## The counter -/

/-- The counter has the pressed samples, up to the second, and with that the
button is down. -/
structure Counts (t : List Bool) (s : ℤ × ℤ) : Prop where
  cnt : s.2 = min (t.count true) 2
  down : s.1 = 0 ↔ t.count true < 2

theorem count_pressed (t : List Bool) : (t ++ [true]).count true = t.count true + 1 := by simp

theorem count_released (t : List Bool) : (t ++ [false]).count true = t.count true := by simp

theorem Counts.pressed {s : ℤ × ℤ} (h : Counts t s) : Counts (t ++ [true]) (sample true s) := by
  obtain ⟨hcnt, hdown⟩ := h
  unfold sample
  by_cases hzero : s.1 = 0
  · have hlt := hdown.1 hzero
    have hpos : ¬ s.2 < 0 := by omega
    simp only [hzero, hpos, true_and, if_true, if_false]
    constructor
    · rw [count_pressed]
      omega
    · rw [count_pressed]
      split <;> omega
  · simp only [hzero, true_and, not_true, false_and, if_false]
    constructor
    · rw [count_pressed]
      omega
    · rw [count_pressed]
      omega

theorem Counts.released {s : ℤ × ℤ} (h : Counts t s) (hup : s.1 = 0) :
    Counts (t ++ [false]) (sample false s) := by
  obtain ⟨hcnt, hdown⟩ := h
  rw [sample_released_up hup]
  constructor
  · rwa [count_released]
  · rwa [count_released]

/-- A button whose samples were counted goes down at the second pressed one. -/
theorem Counts.rises_iff {s : ℤ × ℤ} (h : Counts t s) :
    (s.1 = 0 ∧ (sample true s).1 ≠ 0) ↔ t.count true = 1 := by
  have hdown := h.pressed.down
  rw [count_pressed] at hdown
  rw [h.down, Ne, hdown]
  omega

/-- It goes up at the first released one, if it is down. -/
theorem Counts.falls_iff {s : ℤ × ℤ} (h : Counts t s) :
    (s.1 ≠ 0 ∧ (sample false s).1 = 0) ↔ 2 ≤ t.count true := by
  rw [← not_lt, ← h.down]
  exact and_iff_left_of_imp fun hne => sample_down false hne

/-! ## Samples -/

theorem pairwise_concat (t : List Bool) (b : Bool) :
    (t ++ [b]).Pairwise (fun x y => x = true → y = true) ↔
      t.Pairwise (fun x y => x = true → y = true) ∧ (true ∈ t → b = true) := by
  rw [List.pairwise_append]
  simp

/-- Samples that are pressed from the first on end with a pressed one. -/
theorem getLast?_of_pairwise (h : t.Pairwise fun x y => x = true → y = true)
    (hcount : 1 ≤ t.count true) : t.getLast? = some true := by
  rcases List.eq_nil_or_concat t with rfl | ⟨u, b, rfl⟩
  · simp at hcount
  · rw [List.concat_eq_append] at *
    cases b with
    | true => exact List.getLast?_concat
    | false =>
      have hmem : true ∈ u := by simpa using hcount
      exact absurd (((pairwise_concat u false).1 h).2 hmem) Bool.false_ne_true

/-- **One more sample**: a pressed one is right unless it is the second and
comes after a released one. -/
theorem pressedToTheEnd_pressed (t : List Bool) : PressedToTheEnd (t ++ [true]) ↔
    PressedToTheEnd t ∧ (t.count true = 1 → t.getLast? = some true) := by
  rw [PressedToTheEnd, PressedToTheEnd, count_pressed, pairwise_concat,
    and_iff_left fun _ => rfl]
  constructor
  · rintro (hle | hpair)
    · exact ⟨Or.inl (by omega), fun hone => absurd hone (by omega)⟩
    · exact ⟨Or.inr hpair, fun hone => getLast?_of_pairwise hpair hone.ge⟩
  · rintro ⟨hle | hpair, hlast⟩
    · by_cases hone : t.count true = 1
      · -- the only pressed sample is the last one
        obtain ⟨u, rfl⟩ := List.getLast?_eq_some_iff.1 (hlast hone)
        have hnone : true ∉ u := by
          rw [← List.count_eq_zero]
          simpa using hone
        refine Or.inr ((pairwise_concat u true).2 ⟨?_, fun _ => rfl⟩)
        exact List.pairwise_of_forall_mem_list fun x hx y _ hxt => absurd (hxt ▸ hx) hnone
      · exact Or.inl (by omega)
    · exact Or.inr hpair

/-- A released one is right up to the second pressed one. -/
theorem pressedToTheEnd_released (t : List Bool) : PressedToTheEnd (t ++ [false]) ↔
    PressedToTheEnd t ∧ ¬ 2 ≤ t.count true := by
  rw [PressedToTheEnd, PressedToTheEnd, count_released, pairwise_concat]
  constructor
  · rintro (hle | ⟨hpair, hnone⟩)
    · exact ⟨Or.inl hle, by omega⟩
    · have hzero : t.count true = 0 :=
        List.count_eq_zero.2 fun hmem => Bool.false_ne_true (hnone hmem)
      exact ⟨Or.inr hpair, by omega⟩
  · exact fun h => Or.inl (by omega)

/-! ## Whole runs -/

theorem after_concat (cs : List PanelCall) (c : PanelCall) :
    after setup (cs ++ [c]) = call setup (after setup cs) c := Runs.run_append ..

theorem samples_concat (cs : List PanelCall) (c : PanelCall) :
    samples setup i (cs ++ [c]) = samples setup i cs ++ (seen setup i c).toList := by
  rw [samples, samples, List.filterMap_append]
  cases hc : seen setup i c with
  | none => simp [hc]
  | some b => simp [hc]

/-- The button goes down and up as it should. -/
def GoesRight (setup : Setup) (i : ℕ) (cs : List PanelCall) : Prop :=
  ∀ pre c post, cs = pre ++ c :: post →
    (Rises setup i (after setup pre) c → SecondInRow setup i true pre c) ∧
      (Falls setup i (after setup pre) c → SecondInRow setup i false pre c)

theorem goesRight_concat (cs : List PanelCall) (c : PanelCall) :
    GoesRight setup i (cs ++ [c]) ↔ GoesRight setup i cs ∧
      (Rises setup i (after setup cs) c → SecondInRow setup i true cs c) ∧
      (Falls setup i (after setup cs) c → SecondInRow setup i false cs c) :=
  Runs.forall_split_concat

/-- **The counter and the button**, after calls whose samples are pressed to
the end. -/
theorem counts_after (hi : i < setup.maxButton) (cs : List PanelCall) :
    PressedToTheEnd (samples setup i cs) →
      Counts (samples setup i cs) ((after setup cs).state i) := by
  induction cs using List.reverseRecOn with
  | nil => exact fun _ => ⟨rfl, iff_of_true rfl Nat.zero_lt_two⟩
  | append_singleton cs c ih =>
    rw [samples_concat, after_concat]
    cases hc : seen setup i c with
    | none =>
      intro h
      rw [Option.toList_none, List.append_nil] at h ⊢
      obtain ⟨hcnt, hdown⟩ := ih h
      obtain ⟨hkeep, hbutton⟩ := call_of_not_seen hc (after setup cs)
      unfold Panel.state at *
      constructor
      · rw [hkeep, hcnt]
      · rw [← hdown]
        omega
    | some b =>
      obtain ⟨input, rfl, hb⟩ := seen_eq_some hc
      rw [Option.toList_some, boardLoop_sample hi, hb]
      intro h
      cases b with
      | true => exact (ih ((pressedToTheEnd_pressed _).1 h).1).pressed
      | false =>
        obtain ⟨h', hlt⟩ := (pressedToTheEnd_released _).1 h
        have hcounts := ih h'
        exact hcounts.released (hcounts.down.2 (not_le.1 hlt))

/-- **When a button goes right**: with these samples, and no others. -/
theorem goesRight_iff (hi : i < setup.maxButton) (cs : List PanelCall) :
    GoesRight setup i cs ↔ PressedToTheEnd (samples setup i cs) := by
  induction cs using List.reverseRecOn with
  | nil =>
    refine iff_of_true (fun pre c post hnil => ?_) (Or.inl (Nat.zero_le 1))
    exact absurd hnil.symm (by simp)
  | append_singleton cs c ih =>
    rw [goesRight_concat, samples_concat, ih]
    cases hc : seen setup i c with
    | none =>
      -- neither up nor down
      have hbutton := (call_of_not_seen hc (after setup cs)).2
      rw [Option.toList_none, List.append_nil]
      refine and_iff_left ⟨fun hrise => ?_, fun hfall => ?_⟩
      · obtain ⟨hzero, hne⟩ := hrise
        omega
      · obtain ⟨hne, hzero⟩ := hfall
        omega
    | some b =>
      obtain ⟨input, rfl, hb⟩ := seen_eq_some hc
      have hstep := boardLoop_sample hi input (after setup cs)
      have hafter : (call setup (after setup cs) (.loop true input)).button i =
          (sample b ((after setup cs).state i)).1 := by
        rw [← hb, ← hstep]
        rfl
      rw [Option.toList_some]
      cases b with
      | true =>
        rw [pressedToTheEnd_pressed]
        refine and_congr_right fun h => ?_
        have hrise : Rises setup i (after setup cs) (.loop true input) ↔
            (samples setup i cs).count true = 1 := by
          rw [Rises, hafter]
          exact (counts_after hi cs h).rises_iff
        have hfall : ¬ Falls setup i (after setup cs) (.loop true input) := by
          rintro ⟨hne, hzero⟩
          rw [hafter, sample_down true hne] at hzero
          exact hne hzero
        rw [hrise, SecondInRow, and_iff_right hc]
        exact and_iff_left fun h => absurd h hfall
      | false =>
        rw [pressedToTheEnd_released]
        refine and_congr_right fun h => ?_
        have hfall : Falls setup i (after setup cs) (.loop true input) ↔
            2 ≤ (samples setup i cs).count true := by
          rw [Falls, hafter]
          exact (counts_after hi cs h).falls_iff
        have hrise : ¬ Rises setup i (after setup cs) (.loop true input) := by
          rintro ⟨hzero, hne⟩
          rw [hafter, sample_released_up hzero] at hne
          exact hne hzero
        rw [hfall, and_iff_right fun h => absurd h hrise]
        refine ⟨fun hsecond htwo => ?_, fun hlt htwo => absurd htwo hlt⟩
        -- the samples end with a pressed one
        have hlast := (hsecond htwo).2
        rw [getLast?_of_pairwise (h.resolve_left (not_le.2 htwo)) (by omega)] at hlast
        cases hlast

/-- **Reports are once**: between two of them the button goes up. -/
theorem reports_once (hi : i < setup.maxButton) {pre mid : List PanelCall} {c d : PanelCall}
    (hc : Reports setup i (after setup pre) c)
    (hd : Reports setup i (after setup (pre ++ c :: mid)) d) :
    ∃ m₁ e m₂, mid = m₁ ++ e :: m₂ ∧ Falls setup i (after setup (pre ++ c :: m₁)) e := by
  have hrun : ∀ m, after setup (pre ++ c :: m) =
      Runs.run (call setup) (call setup (after setup pre) c) m := by
    intro m
    rw [after, Runs.run_append]
    rfl
  have hlost : ¬ (Runs.run (call setup) (call setup (after setup pre) c) mid).button i = 2 := by
    rw [← hrun, hd.button.1]
    decide
  obtain ⟨m₁, e, m₂, rfl, hpre, hpost⟩ :=
    Runs.exists_step_of_lost (P := fun s : Panel => s.button i = 2) hc.button.2 hlost
  refine ⟨m₁, e, m₂, rfl, ?_⟩
  rw [hrun]
  exact (reported_step hi hpre e).resolve_left hpost

/-- **A button is debounced** when at most one sample is pressed, or from the
first that is on all are. Reports are once in any case. -/
theorem debounced_iff (devID : Word) (hi : i < (whichBoard devID).maxButton) (cs : List PanelCall) :
    Debounced (whichBoard devID) i cs ↔ PressedToTheEnd (samples (whichBoard devID) i cs) := by
  rw [← goesRight_iff hi]
  constructor
  · intro h pre c post heq
    exact ⟨h.rise pre c post heq, h.fall pre c post heq⟩
  · intro h
    refine ⟨fun pre c post heq => (h pre c post heq).1, fun pre c post heq => (h pre c post heq).2,
      fun pre c mid d post _ hc hd => reports_once hi hc hd⟩

/-- Two pressed samples and a released one: the button is up again. -/
theorem debounced_released_once : let setup := whichBoard 0xee9136cf#32
    let cs : List PanelCall := [.loop true 0xffffdfff#32, .loop true 0xffffdfff#32]
    samples setup 0 (cs ++ [.loop true 0xffffffff#32]) = [true, true, false] ∧
      Falls setup 0 (after setup cs) (.loop true 0xffffffff#32) ∧
      ¬ Debounced setup 0 (cs ++ [.loop true 0xffffffff#32]) := by
  intro setup cs
  have hfall : Falls setup 0 (after setup cs) (.loop true 0xffffffff#32) := ⟨by decide, by decide⟩
  refine ⟨by decide, hfall, fun h => ?_⟩
  exact absurd (h.fall cs _ [] rfl hfall).2 (by decide)

/-- Two pressed samples and a report. -/
theorem debounced_pressed_twice : let setup := whichBoard 0xee9136cf#32
    let cs : List PanelCall := [.loop true 0xffffdfff#32, .loop true 0xffffdfff#32, .event]
    Debounced setup 0 cs ↔ PressedToTheEnd (samples setup 0 cs) :=
  debounced_iff 0xee9136cf#32 (by decide) _

end Board

end AntTracer
