import AntTracer.App.Store
import AntTracer.Debug.Snprintf

/-!
# The `level` command

`level` changes the mask of the subsystems that `dprintf` shows, one argument
after the other. Its variables `bits` and `neg` are set up before the first
argument and not again, so that an argument finds what the ones before it left
there: after one with a `-` all others turn off what they name, together with
all that was named before. `level_iff` has the lists of arguments for which
that makes no difference.
-/

namespace AntTracer

namespace Debug

/-! ## The source -/

/-- `getLevel`. -/
def getLevel (c : Byte) : Option ℕ :=
  if ch 'A' ≤ c ∧ c ≤ ch 'Z' then some (c - ch 'A').toNat
  else if ch 'a' ≤ c ∧ c ≤ ch 'z' then some (c - ch 'a').toNat
  else none

/-- A text in memory. -/
def cstring (s : String) (h : 0#8 ∉ s.toList.map ch) : CString := ⟨s.toList.map ch, h⟩

/-- `debugLevels`. -/
def debugLevels : List (Byte × CString) :=
  [(ch 't', cstring "ANT protocol" (by decide)), (ch 'b', cstring "broadcast messages" (by decide)),
    (ch 's', cstring "scan messages" (by decide)), (ch 'a', cstring "app messages" (by decide)),
    (ch 'i', cstring "spi message" (by decide)), (ch 'm', cstring "modem state" (by decide)),
    (ch 'n', cstring "Nordic related" (by decide))]

/-- `checkLevel`. -/
def checkLevel (fmt : CString) (pr : Pr) : Option Pr := do
  let c ← fmt.charAt 0
  if c ≠ ch '<' then some pr
  else do
    let c ← fmt.charAt 1
    match getLevel c with
    | none => some pr
    | some x => do
      let c ← fmt.charAt 2
      some (if c ≠ ch '>' then pr else { pr with currentLevel := 1#32 <<< x })

/-- `dprintf`. -/
def dprintf (fmt : CString) (ap : List Arg) (pr : Pr) : Option Pr := do
  let pr ← checkLevel fmt pr
  xprintf xputc fmt ap pr

/-- What `level` works on: the printing state, which has `printMask`, and the
store with `Config`. -/
structure Levels where
  pr : Pr
  store : App.Store

/-- `printMask`. -/
abbrev Levels.printMask (s : Levels) : Word := s.pr.printMask

/-- `Config.printMask`. -/
def confPrintMask (cf : App.Config) : Word := cf.confArray 29

/-- The loop over the characters of an argument. -/
def levelBits (bits : Word) (a : List Byte) : Word :=
  a.foldl (fun bits c => match getLevel c with
    | none => bits
    | some x => bits ||| (1#32 <<< x)) bits

/-- The mask is assigned, to `Config` as well, and the configuration saved. -/
def Levels.setPrintMask (s : Levels) (mask : Word) : Levels where
  pr := { s.pr with printMask := mask }
  store := App.storeConfiguration false
    { s.store with config := ⟨Function.update s.store.config.confArray 29 mask⟩ }

/-- The loop over the arguments. -/
def levelArgs : List CString → Word → Bool → Levels → Levels
  | [], _, _, s => s
  | a :: argv, bits, neg, s =>
    let neg := if a.chars.head? = some (ch '-') then true else neg
    let a := if a.chars.head? = some (ch '+') ∨ a.chars.head? = some (ch '-') then a.chars.tail
      else a.chars
    let bits := levelBits bits a
    let mask := if ¬ neg then s.printMask ||| bits
      else if bits ≠ 0#32 then s.printMask &&& ~~~bits
      else 0#32
    levelArgs argv bits neg (s.setPrintMask mask)

/-- What is printed at the end. -/
def levelReport (pr : Pr) : Option Pr := do
  let pr ← dprintf (cstring "Level is 0x%08x\n" (by decide)) [.int pr.printMask] pr
  debugLevels.foldlM (fun pr l => match getLevel l.1 with
    | none => some pr
    | some x =>
      let enabled := if (1#32 <<< x) &&& pr.printMask ≠ 0#32 then ch '+' else ch ' '
      dprintf (cstring "    <%c>  %c  %s\n" (by decide))
        [.int (int l.1), .int (int enabled), .str l.2] pr) pr

/-- `level`, with its arguments. -/
def level (args : List CString) (s : Levels) : Option Levels := do
  let s := levelArgs args 0#32 false s
  let pr ← levelReport s.pr
  some { s with pr := pr }

/-! ## What the arguments are for -/

/-- The argument turns messages off. -/
def Clears (a : CString) : Prop := a.chars.head? = some (ch '-')

/-- It names a subsystem. -/
def Names (a : CString) (x : ℕ) : Prop := ∃ c ∈ a.chars, getLevel c = some x

/-- It has letters. -/
def HasLetters (a : CString) : Prop := ∃ x, Names a x

instance (a : CString) : Decidable (Clears a) := inferInstanceAs (Decidable (_ = _))

theorem any_isSome_getLevel_iff (a : CString) :
    (a.chars.any fun c => (getLevel c).isSome) = true ↔ HasLetters a := by
  simp only [List.any_eq_true, Option.isSome_iff_exists, HasLetters, Names]
  tauto

instance (a : CString) : Decidable (HasLetters a) :=
  decidable_of_iff _ (any_isSome_getLevel_iff a)

/-- The bits of the letters of an argument. -/
def letterBits (a : CString) : Word := levelBits 0#32 a.chars

/-- What one argument does to the mask. -/
def argMask (mask : Word) (a : CString) : Word :=
  if Clears a then if HasLetters a then mask &&& ~~~letterBits a else 0#32
  else mask ||| letterBits a

/-- Each argument had its effect, in order, and `Config` has the mask. -/
def TakesEach (args : List CString) (s : Levels) (r : Option Levels) : Prop :=
  ∃ s', r = some s' ∧ s'.printMask = args.foldl argMask s.printMask ∧
    (args ≠ [] → confPrintMask s'.store.config = s'.printMask)

/-- It turns a subsystem off: by name, or because it turns off all. -/
def TurnsOff (a : CString) (x : ℕ) : Prop := Clears a ∧ (Names a x ∨ ¬ HasLetters a)

/-- What is left in `bits` and `neg` makes no difference: no argument turns
anything off; or all that one turns on is turned off by a later one, and in
addition, no argument is a `-` without letters, or one is that has no letters
before it either, or all that was on before is named by some argument. -/
def NothingLeft (args : List CString) (mask : Word) : Prop :=
  (∀ a ∈ args, ¬ Clears a) ∨
    (∀ pre a post, args = pre ++ a :: post → ¬ Clears a → ∀ x, Names a x →
        ∃ b ∈ post, TurnsOff b x) ∧
      ((∀ a ∈ args, Clears a → HasLetters a) ∨
        (∃ pre a post, args = pre ++ a :: post ∧ Clears a ∧ ∀ b ∈ pre ++ [a], ¬ HasLetters b) ∨
        ∀ x, mask.getLsbD x = true → ∃ a ∈ args, Names a x)

variable {a c : CString} {args pre post : List CString} {bits mask : Word} {x : ℕ} {s s' : Levels}

/-! ## Letters -/

theorem getLevel_lt {c : Byte} (h : getLevel c = some x) : x < 26 := by
  have hA : (ch 'A').toNat = 65 := rfl
  have hZ : (ch 'Z').toNat = 90 := rfl
  have ha : (ch 'a').toNat = 97 := rfl
  have hz : (ch 'z').toNat = 122 := rfl
  have hc := c.isLt
  rw [getLevel] at h
  split at h
  · rename_i hu
    rw [BitVec.le_def, BitVec.le_def] at hu
    rw [← Option.some.inj h, BitVec.toNat_sub]
    omega
  · split at h
    · rename_i hl
      rw [BitVec.le_def, BitVec.le_def] at hl
      rw [← Option.some.inj h, BitVec.toNat_sub]
      omega
    · cases h

/-- **The bits of some characters** are those of the letters among them. -/
theorem getLsbD_levelBits (t : List Byte) : ∀ bits : Word, (levelBits bits t).getLsbD x = true ↔
    bits.getLsbD x = true ∨ ∃ c ∈ t, getLevel c = some x := by
  induction t with
  | nil => simp [levelBits]
  | cons c t ih =>
    intro bits
    rw [levelBits, List.foldl_cons, ← levelBits, ih, List.exists_mem_cons_iff]
    cases hc : getLevel c with
    | none => simp
    | some y =>
      have hy := getLevel_lt hc
      have hbit : (1#32 <<< y).getLsbD x = true ↔ y = x := by
        rw [← BitVec.twoPow_eq, BitVec.getLsbD_twoPow]
        simp only [show y < 32 by omega, decide_true, Bool.true_and, decide_eq_true_eq]
      simp only [BitVec.getLsbD_or, Bool.or_eq_true, hbit, Option.some.injEq, or_assoc]

theorem getLsbD_letterBits (a : CString) : (letterBits a).getLsbD x = true ↔ Names a x := by
  rw [letterBits, getLsbD_levelBits]
  simp [Names]

/-- Masks with the same bits are the same. -/
theorem eq_iff_getLsbD : mask = bits ↔ ∀ x, mask.getLsbD x = true ↔ bits.getLsbD x = true := by
  constructor
  · rintro rfl x
    rfl
  · intro h
    refine BitVec.eq_of_getLsbD_eq fun x _ => ?_
    rw [Bool.eq_iff_iff]
    exact h x

theorem eq_zero_iff_getLsbD : bits = 0#32 ↔ ∀ x, ¬ bits.getLsbD x = true := by
  rw [eq_iff_getLsbD]
  simp

theorem getLsbD_and_not : (mask &&& ~~~bits).getLsbD x = true ↔
    mask.getLsbD x = true ∧ ¬ bits.getLsbD x = true := by
  have hlt : mask.getLsbD x = true → x < 32 := fun h => BitVec.lt_of_getLsbD h
  simp only [BitVec.getLsbD_and, BitVec.getLsbD_not, Bool.and_eq_true, decide_eq_true_eq,
    Bool.not_eq_true', Bool.not_eq_true]
  tauto

/-- A sign in front of the letters is none. -/
theorem mem_letters_iff (a : CString) :
    (∃ c ∈ (if a.chars.head? = some (ch '+') ∨ a.chars.head? = some (ch '-') then a.chars.tail
      else a.chars), getLevel c = some x) ↔ Names a x := by
  rw [Names]
  split
  · rename_i hsign
    cases hcs : a.chars with
    | nil => simp
    | cons d t =>
      have hd : getLevel d = none := by
        rw [hcs] at hsign
        rcases hsign with h | h <;> rw [Option.some.inj h] <;> decide
      rw [List.tail_cons, List.exists_mem_cons_iff, hd]
      simp
  · rfl

/-! ## The effect of the arguments -/

theorem getLsbD_argMask : (argMask mask a).getLsbD x = true ↔
    (¬ Clears a ∧ Names a x) ∨ (mask.getLsbD x = true ∧ ¬ TurnsOff a x) := by
  have hnames := getLsbD_letterBits (x := x) a
  rw [argMask, TurnsOff]
  split
  · rename_i hclear
    split
    · rename_i hletters
      rw [getLsbD_and_not, hnames]
      simp [hclear, hletters]
    · rename_i hletters
      simp [hclear, hletters]
  · rename_i hclear
    simp [hclear, hnames, or_comm]

/-- **What all arguments are for**: a subsystem is on in the end when it was
turned on and not off since, or was on before and nothing turns it off. -/
theorem getLsbD_foldl_argMask (args : List CString) : ∀ mask : Word,
    (args.foldl argMask mask).getLsbD x = true ↔
      (∃ pre a post, args = pre ++ a :: post ∧
        ¬ Clears a ∧ Names a x ∧ ∀ b ∈ post, ¬ TurnsOff b x) ∨
      (mask.getLsbD x = true ∧ ∀ b ∈ args, ¬ TurnsOff b x) := by
  induction args with
  | nil => simp
  | cons a args ih =>
    intro mask
    rw [List.foldl_cons, ih, getLsbD_argMask, Runs.exists_split_cons, List.forall_mem_cons,
      or_and_right, and_assoc, and_assoc, or_left_comm, or_assoc]

/-! ## What the command does -/

theorem printMask_setPrintMask (s : Levels) (mask : Word) :
    (s.setPrintMask mask).printMask = mask := rfl

/-- **One argument**: its letters go to those in `bits`, and it finds `neg`. -/
theorem levelArgs_cons (a : CString) (args : List CString) (bits : Word) (neg : Bool)
    (s : Levels) : ∃ bits',
    (∀ x, bits'.getLsbD x = true ↔ bits.getLsbD x = true ∨ Names a x) ∧
      levelArgs (a :: args) bits neg s = levelArgs args bits' (neg || decide (Clears a))
        (s.setPrintMask (if ¬ (neg || decide (Clears a)) then s.printMask ||| bits'
          else if bits' ≠ 0#32 then s.printMask &&& ~~~bits' else 0#32)) := by
  refine ⟨_, fun x => (getLsbD_levelBits _ _).trans (or_congr_right (mem_letters_iff a)), ?_⟩
  have hneg : (if a.chars.head? = some (ch '-') then true else neg) =
      (neg || decide (Clears a)) := by
    by_cases hclear : Clears a
    · have hhead : a.chars.head? = some (ch '-') := hclear
      rw [if_pos hhead, decide_eq_true hclear, Bool.or_true]
    · have hhead : ¬ a.chars.head? = some (ch '-') := hclear
      rw [if_neg hhead, decide_eq_false hclear, Bool.or_false]
  rw [levelArgs, hneg]

/-- Up to the first argument with a `-`, `bits` has the letters of the
arguments, and they have been turned on. -/
theorem levelArgs_turnsOn (hpre : ∀ a ∈ pre, ¬ Clears a) (rest : List CString) :
    ∀ (bits : Word) (s : Levels), (∀ x, bits.getLsbD x = true → s.printMask.getLsbD x = true) →
    ∃ bits' s', levelArgs (pre ++ rest) bits false s = levelArgs rest bits' false s' ∧
      (∀ x, bits'.getLsbD x = true ↔ bits.getLsbD x = true ∨ ∃ a ∈ pre, Names a x) ∧
      ∀ x, s'.printMask.getLsbD x = true ↔
        s.printMask.getLsbD x = true ∨ ∃ a ∈ pre, Names a x := by
  induction pre with
  | nil => exact fun bits s _ => ⟨bits, s, rfl, by simp, by simp⟩
  | cons a pre ih =>
    intro bits s hle
    obtain ⟨hclear, hpre⟩ := List.forall_mem_cons.1 hpre
    obtain ⟨bits₁, hbits₁, hstep⟩ := levelArgs_cons a (pre ++ rest) bits false s
    rw [decide_eq_false hclear, Bool.or_false, if_pos Bool.false_ne_true] at hstep
    have hmask₁ : ∀ x, (s.setPrintMask (s.printMask ||| bits₁)).printMask.getLsbD x = true ↔
        s.printMask.getLsbD x = true ∨ Names a x := by
      intro x
      have hx := hle x
      have hx₁ := hbits₁ x
      change (s.printMask ||| bits₁).getLsbD x = true ↔ _
      rw [BitVec.getLsbD_or, Bool.or_eq_true]
      tauto
    obtain ⟨bits', s', hrest, hbits, hmask⟩ := ih hpre bits₁
      (s.setPrintMask (s.printMask ||| bits₁)) fun x hx =>
        (hmask₁ x).2 (((hbits₁ x).1 hx).imp_left (hle x))
    refine ⟨bits', s', hstep.trans hrest, fun x => ?_, fun x => ?_⟩
    · rw [hbits, hbits₁, List.exists_mem_cons_iff, or_assoc]
    · rw [hmask, hmask₁, List.exists_mem_cons_iff, or_assoc]

/-- From an argument with a `-` on, all letters are turned off, those in `bits`
included. -/
theorem levelArgs_turnsOff (args : List CString) : ∀ (bits : Word) (s : Levels),
    bits ≠ 0#32 → (∀ x, bits.getLsbD x = true → ¬ s.printMask.getLsbD x = true) →
    ∀ x, (levelArgs args bits true s).printMask.getLsbD x = true ↔
      s.printMask.getLsbD x = true ∧ ∀ a ∈ args, ¬ Names a x := by
  induction args with
  | nil => exact fun bits s _ _ x => by simp [levelArgs]
  | cons a args ih =>
    intro bits s hne hoff x
    obtain ⟨bits₁, hbits₁, hstep⟩ := levelArgs_cons a args bits true s
    have hne₁ : bits₁ ≠ 0#32 := by
      rw [Ne, eq_zero_iff_getLsbD] at hne ⊢
      exact fun h => hne fun y hy => h y ((hbits₁ y).2 (Or.inl hy))
    rw [Bool.true_or, if_neg (not_not.2 rfl), if_pos hne₁] at hstep
    have hmask₁ : ∀ y,
        (s.setPrintMask (s.printMask &&& ~~~bits₁)).printMask.getLsbD y = true ↔
          s.printMask.getLsbD y = true ∧ ¬ Names a y := by
      intro y
      have hy := hoff y
      have hy₁ := hbits₁ y
      change (s.printMask &&& ~~~bits₁).getLsbD y = true ↔ _
      rw [getLsbD_and_not]
      tauto
    have hoff₁ : ∀ y, bits₁.getLsbD y = true →
        ¬ (s.setPrintMask (s.printMask &&& ~~~bits₁)).printMask.getLsbD y = true := by
      intro y hy
      change ¬ (s.printMask &&& ~~~bits₁).getLsbD y = true
      rw [getLsbD_and_not]
      tauto
    rw [hstep, ih bits₁ _ hne₁ hoff₁ x, hmask₁, List.forall_mem_cons, and_assoc]

/-- A `-` without letters in front of all letters turns everything off for
good. -/
theorem levelArgs_zero (args : List CString) : ∀ (bits : Word) (s : Levels),
    s.printMask = 0#32 → (levelArgs args bits true s).printMask = 0#32 := by
  induction args with
  | nil => exact fun bits s h => h
  | cons a args ih =>
    intro bits s h
    obtain ⟨bits₁, -, hstep⟩ := levelArgs_cons a args bits true s
    rw [hstep, Bool.true_or]
    refine ih bits₁ _ ?_
    rw [printMask_setPrintMask, if_neg (not_not.2 rfl), h, BitVec.zero_and, ite_self]

/-- **The mask at the end**, when no argument has a `-`. -/
theorem getLsbD_levelArgs_on (hargs : ∀ a ∈ args, ¬ Clears a) (s : Levels) :
    (levelArgs args 0#32 false s).printMask.getLsbD x = true ↔
      s.printMask.getLsbD x = true ∨ ∃ a ∈ args, Names a x := by
  obtain ⟨bits', s', hrun, -, hmask⟩ := levelArgs_turnsOn hargs [] 0#32 s (by simp)
  rw [List.append_nil] at hrun
  rw [hrun]
  exact hmask x

/-- **The mask at the end**, when `c` is the first argument with a `-`. -/
theorem getLsbD_levelArgs_off (hpre : ∀ a ∈ pre, ¬ Clears a) (hc : Clears c) (post : List CString)
    (s : Levels) : (levelArgs (pre ++ c :: post) 0#32 false s).printMask.getLsbD x = true ↔
      (s.printMask.getLsbD x = true ∧ ∀ a ∈ pre ++ c :: post, ¬ Names a x) ∧
        ∃ b ∈ pre ++ [c], HasLetters b := by
  obtain ⟨bits, s', hrun, hbits, hmask⟩ := levelArgs_turnsOn hpre (c :: post) 0#32 s (by simp)
  obtain ⟨bits₁, hbits₁, hstep⟩ := levelArgs_cons c post bits false s'
  rw [hrun, hstep, decide_eq_true hc, Bool.or_true, if_neg (not_not.2 rfl)]
  have hnamed : ∀ y, bits₁.getLsbD y = true ↔ ∃ b ∈ pre ++ [c], Names b y := by
    intro y
    rw [hbits₁, hbits]
    simp [or_and_right, exists_or]
  have hletters : bits₁ = 0#32 ↔ ¬ ∃ b ∈ pre ++ [c], HasLetters b := by
    rw [eq_zero_iff_getLsbD]
    simp only [hnamed, HasLetters]
    constructor
    · rintro h ⟨b, hb, x, hx⟩
      exact h x ⟨b, hb, hx⟩
    · rintro h x ⟨b, hb, hx⟩
      exact h ⟨b, hb, x, hx⟩
  by_cases hzero : bits₁ = 0#32
  · rw [if_neg (not_not.2 hzero), levelArgs_zero post bits₁ _ rfl, BitVec.getLsbD_zero]
    exact iff_of_false Bool.false_ne_true fun h => hletters.1 hzero h.2
  · have hsome := not_not.1 (mt hletters.2 hzero)
    have hoff : ∀ y, bits₁.getLsbD y = true →
        ¬ (s'.setPrintMask (s'.printMask &&& ~~~bits₁)).printMask.getLsbD y = true := by
      intro y hy
      rw [printMask_setPrintMask, getLsbD_and_not]
      exact fun h => h.2 hy
    have hsplit : pre ++ c :: post = (pre ++ [c]) ++ post := by simp
    have hle : (∃ a ∈ pre, Names a x) → ∃ b ∈ pre ++ [c], Names b x := by
      rintro ⟨a, ha, hx⟩
      exact ⟨a, List.mem_append_left _ ha, hx⟩
    rw [if_pos hzero, levelArgs_turnsOff post bits₁ _ hzero hoff, printMask_setPrintMask,
      getLsbD_and_not, hmask, hnamed, and_iff_left hsome, hsplit, List.forall_mem_append,
      ← and_assoc]
    refine and_congr_left fun _ => ⟨?_, ?_⟩
    · rintro ⟨hon, hnone⟩
      exact ⟨hon.resolve_right (mt hle hnone), fun b hb hx => hnone ⟨b, hb, hx⟩⟩
    · rintro ⟨hon, hnone⟩
      refine ⟨Or.inl hon, ?_⟩
      rintro ⟨b, hb, hx⟩
      exact hnone b hb hx

theorem exists_first_clears (h : ¬ ∀ a ∈ args, ¬ Clears a) : ∃ pre c post,
    args = pre ++ c :: post ∧ (∀ a ∈ pre, ¬ Clears a) ∧ Clears c := by
  cases hfind : args.find? (fun a => decide (Clears a)) with
  | none => exact absurd (fun a ha => by simpa using List.find?_eq_none.1 hfind a ha) h
  | some c =>
    obtain ⟨hc, pre, post, heq, hpre⟩ := List.find?_eq_some_iff_append.1 hfind
    exact ⟨pre, c, post, heq, by simpa using hpre, by simpa using hc⟩

/-- Up to the first argument with a `-` is up to any such. -/
theorem mem_upto_of_first {b d : CString} {p q : List CString}
    (heq : p ++ c :: q = pre ++ d :: post) (hp : ∀ a ∈ p, ¬ Clears a) (hd : Clears d)
    (hb : b ∈ p ++ [c]) : b ∈ pre ++ [d] := by
  rcases List.append_eq_append_iff.1 heq with ⟨l, rfl, h⟩ | ⟨l, rfl, h⟩
  · cases l with
    | nil =>
      rw [List.append_nil, ← (List.cons.inj h).1]
      exact hb
    | cons e l =>
      rw [← (List.cons.inj h).1, List.append_assoc]
      simp only [List.mem_append, List.cons_append, List.mem_cons] at hb ⊢
      tauto
  · cases l with
    | nil =>
      rw [List.append_nil] at hb
      rwa [(List.cons.inj h).1]
    | cons e l =>
      rw [(List.cons.inj h).1] at hd
      exact absurd hd (hp e (List.mem_append_right _ List.mem_cons_self))

/-! ## When the mask is right -/

/-- What an argument turns on is turned off by a later one. -/
def GoesOff (args : List CString) : Prop :=
  ∀ pre a post, args = pre ++ a :: post → ¬ Clears a → ∀ x, Names a x → ∃ b ∈ post, TurnsOff b x

/-- Without a `-` subsystems are turned on only. -/
theorem getLsbD_foldl_argMask_on (hargs : ∀ a ∈ args, ¬ Clears a) (mask : Word) :
    (args.foldl argMask mask).getLsbD x = true ↔
      mask.getLsbD x = true ∨ ∃ a ∈ args, Names a x := by
  have hoff : ∀ a ∈ args, ¬ TurnsOff a x := fun a ha h => hargs a ha h.1
  rw [getLsbD_foldl_argMask, or_comm]
  refine or_congr (and_iff_left hoff) ⟨?_, ?_⟩
  · rintro ⟨pre, a, post, rfl, -, hx, -⟩
    exact ⟨a, List.mem_append_right _ List.mem_cons_self, hx⟩
  · rintro ⟨a, ha, hx⟩
    obtain ⟨pre, post, rfl⟩ := List.append_of_mem ha
    exact ⟨pre, a, post, rfl, hargs a ha, hx,
      fun b hb => hoff b (List.mem_append_right _ (List.mem_cons_of_mem _ hb))⟩

/-- All goes off if no letter is on in the end. -/
theorem goesOff_of_off
    (h : ∀ a ∈ args, ∀ x, Names a x → ¬ (args.foldl argMask mask).getLsbD x = true) :
    GoesOff args := by
  intro pre a post hargs hclear x hx
  by_contra hno
  push Not at hno
  refine h a (hargs ▸ List.mem_append_right _ List.mem_cons_self) x hx ?_
  rw [getLsbD_foldl_argMask]
  exact Or.inl ⟨pre, a, post, hargs, hclear, hx, hno⟩

/-- Where all goes off, what is on in the end was on before. -/
theorem GoesOff.getLsbD_foldl (h : GoesOff args) (mask : Word) :
    (args.foldl argMask mask).getLsbD x = true ↔
      mask.getLsbD x = true ∧ ∀ b ∈ args, ¬ TurnsOff b x := by
  rw [getLsbD_foldl_argMask, or_iff_right]
  rintro ⟨pre, a, post, hargs, hclear, hx, hno⟩
  obtain ⟨b, hb, hoff⟩ := h pre a post hargs hclear x hx
  exact hno b hb hoff

/-- Where all goes off, a subsystem is let be when no argument names it and
none is without letters. -/
theorem GoesOff.forall_not_turnsOff_iff (h : GoesOff args) :
    (∀ b ∈ args, ¬ TurnsOff b x) ↔
      (∀ a ∈ args, ¬ Names a x) ∧ ∀ b ∈ args, Clears b → HasLetters b := by
  constructor
  · refine fun hno => ⟨fun a ha hx => ?_, fun b hb hclear => ?_⟩
    · by_cases hclear : Clears a
      · exact hno a ha ⟨hclear, Or.inl hx⟩
      · obtain ⟨pre, post, hargs⟩ := List.append_of_mem ha
        obtain ⟨b, hb, hoff⟩ := h pre a post hargs hclear x hx
        exact hno b (hargs ▸ List.mem_append_right _ (List.mem_cons_of_mem _ hb)) hoff
    · by_contra hletters
      exact hno b hb ⟨hclear, Or.inr hletters⟩
  · rintro ⟨hnames, hletters⟩ b hb ⟨hclear, hx | hbare⟩
    · exact hnames b hb hx
    · exact hbare (hletters b hb hclear)

/-- A `-` without letters, and none before it, is there when the first `-` is
one. -/
theorem exists_bare_iff (hpre : ∀ a ∈ pre, ¬ Clears a) (hc : Clears c) (post : List CString) :
    (∃ p d q, pre ++ c :: post = p ++ d :: q ∧ Clears d ∧ ∀ b ∈ p ++ [d], ¬ HasLetters b) ↔
      ¬ ∃ b ∈ pre ++ [c], HasLetters b := by
  constructor
  · rintro ⟨p, d, q, heq, hd, hbare⟩ ⟨b, hb, hletters⟩
    exact hbare b (mem_upto_of_first heq hpre hd hb) hletters
  · intro hno
    push Not at hno
    exact ⟨pre, c, post, rfl, hc, hno⟩

/-- **When the mask is right**, after all arguments. -/
theorem printMask_levelArgs_iff (args : List CString) (s : Levels) :
    (levelArgs args 0#32 false s).printMask = args.foldl argMask s.printMask ↔
      NothingLeft args s.printMask := by
  rw [eq_iff_getLsbD, NothingLeft]
  by_cases hnone : ∀ a ∈ args, ¬ Clears a
  · refine iff_of_true (fun x => ?_) (Or.inl hnone)
    rw [getLsbD_levelArgs_on hnone, getLsbD_foldl_argMask_on hnone]
  · -- the letters of all arguments stay in `bits`, and none is on in the end
    rw [or_iff_right hnone]
    obtain ⟨p, c, q, rfl, hp, hc⟩ := exists_first_clears hnone
    have hfirst : (∀ b ∈ p ++ c :: q, Clears b → HasLetters b) → ∃ b ∈ p ++ [c], HasLetters b :=
      fun h => ⟨c, List.mem_append_right _ List.mem_cons_self,
        h c (List.mem_append_right _ List.mem_cons_self) hc⟩
    simp only [getLsbD_levelArgs_off hp hc, exists_bare_iff hp hc]
    constructor
    · intro h
      have hoff : GoesOff (p ++ c :: q) :=
        goesOff_of_off fun a ha x hx hon => ((h x).2 hon).1.2 a ha hx
      refine ⟨hoff, or_iff_not_imp_left.2 fun hbare => or_iff_not_imp_left.2 fun hnot x hx => ?_⟩
      by_contra hnames
      push Not at hnames
      have hon := (h x).1 ⟨⟨hx, hnames⟩, not_not.1 hnot⟩
      rw [hoff.getLsbD_foldl, hoff.forall_not_turnsOff_iff] at hon
      exact hbare hon.2.2
    · rintro ⟨(hoff : GoesOff (p ++ c :: q)), hothers⟩ x
      rw [hoff.getLsbD_foldl, hoff.forall_not_turnsOff_iff, ← and_assoc]
      refine and_congr_right fun hx => ?_
      rcases hothers with hletters | hbare | hon
      · exact iff_of_true (hfirst hletters) hletters
      · exact iff_of_false hbare (mt hfirst hbare)
      · obtain ⟨a, ha, hnames⟩ := hon x hx.1
        exact absurd hnames (hx.2 a ha)

/-! ## What it prints -/

theorem printMask_xputc (pr : Pr) (c : Word) : (xputc pr c).printMask = pr.printMask := by
  unfold xputc Pr.show
  repeat' split
  all_goals rfl

/-- **A message is printed**, and the mask is kept. -/
theorem dprintf_keeps {fmt : CString} {ap : List Arg} {d : Byte} (hd : fmt.charAt 0 = some d)
    (hne : d ≠ ch '<') (hb : ch 'b' ∉ letters .plain fmt.chars)
    (hfits : Fits (letters .plain fmt.chars) ap) (pr : Pr) :
    ∃ pr', dprintf fmt ap pr = some pr' ∧ pr'.printMask = pr.printMask := by
  obtain ⟨cs, hcs⟩ := xprintfFrom_puts fmt.chars.length 0 ap (by omega) (Nat.zero_le _) hb hfits
  refine ⟨cs.foldl xputc pr, ?_, ?_⟩
  · have hlevel : checkLevel fmt pr = some pr := by
      rw [checkLevel, hd, Option.bind_eq_bind, Option.bind_some, if_pos hne]
    rw [dprintf, hlevel]
    exact hcs Pr xputc pr
  · exact Runs.inv_run (P := fun pr' => pr'.printMask = pr.printMask)
      (fun pr' c h => (printMask_xputc pr' c).trans h) rfl cs

theorem levelReport_keeps (pr : Pr) :
    ∃ pr', levelReport pr = some pr' ∧ pr'.printMask = pr.printMask := by
  have hhead : ∀ v, Fits (letters .plain (cstring "Level is 0x%08x\n" (by decide)).chars)
      [.int v] := fun v =>
    show (letters .plain (cstring "Level is 0x%08x\n" (by decide)).chars).filterMap takes <+:
      [ArgType.int] by decide
  have hline : ∀ v w t, Fits (letters .plain (cstring "    <%c>  %c  %s\n" (by decide)).chars)
      [.int v, .int w, .str t] := fun v w t =>
    show (letters .plain (cstring "    <%c>  %c  %s\n" (by decide)).chars).filterMap takes <+:
      [ArgType.int, ArgType.int, ArgType.str] by decide
  obtain ⟨pr₁, hfirst, hmask₁⟩ := dprintf_keeps (d := ch 'L') (by decide) (by decide) (by decide)
    (hhead pr.printMask) pr
  rw [levelReport, hfirst, Option.bind_eq_bind, Option.bind_some]
  refine @Runs.exists_foldlM Pr _ (fun pr' => pr'.printMask = pr.printMask) _
    (fun pr' l hpr' => ?_) pr₁ hmask₁ debugLevels
  cases getLevel l.1 with
  | none => exact ⟨pr', rfl, hpr'⟩
  | some x =>
    obtain ⟨pr₂, hsecond, hmask₂⟩ := dprintf_keeps (d := ch ' ') (by decide) (by decide)
      (by decide) (hline (int l.1) _ l.2) pr'
    exact ⟨pr₂, hsecond, hmask₂.trans hpr'⟩

/-! ## The command -/

theorem confPrintMask_setPrintMask (s : Levels) (mask : Word) :
    confPrintMask (s.setPrintMask mask).store.config = mask := by
  show Function.update s.store.config.confArray 29 mask 29 = mask
  rw [Function.update_self]

/-- After an argument the mask is in `Config`. -/
theorem confPrintMask_levelArgs (args : List CString) : ∀ (bits : Word) (neg : Bool) (s : Levels),
    args ≠ [] ∨ confPrintMask s.store.config = s.printMask →
    confPrintMask (levelArgs args bits neg s).store.config =
      (levelArgs args bits neg s).printMask := by
  induction args with
  | nil => exact fun _ _ _ h => h.resolve_left fun h => h rfl
  | cons a args ih => exact fun _ _ s _ => ih _ _ _ (Or.inr (confPrintMask_setPrintMask s _))

theorem exists_level (args : List CString) (s : Levels) : ∃ s', level args s = some s' ∧
    s'.printMask = (levelArgs args 0#32 false s).printMask ∧
    s'.store = (levelArgs args 0#32 false s).store := by
  obtain ⟨pr, hreport, hmask⟩ := levelReport_keeps (levelArgs args 0#32 false s).pr
  exact ⟨{ levelArgs args 0#32 false s with pr := pr }, by rw [level, hreport]; rfl, hmask, rfl⟩

/-- **`level` takes its arguments one by one**, exactly where nothing is left
of one that makes a difference for a later one. -/
theorem level_iff (args : List CString) (s : Levels) :
    TakesEach args s (level args s) ↔ NothingLeft args s.printMask := by
  obtain ⟨s', hlevel, hmask, hstore⟩ := exists_level args s
  rw [← printMask_levelArgs_iff, TakesEach, hlevel, ← hmask]
  constructor
  · rintro ⟨s'', hs, hfold, -⟩
    rw [Option.some.inj hs, hfold]
  · refine fun hfold => ⟨s', rfl, hfold, fun hargs => ?_⟩
    rw [hstore, hmask]
    exact confPrintMask_levelArgs args _ _ s (Or.inl hargs)

/-- `level -a b` turns `b` off as well. -/
theorem level_off_on :
    let s : Levels := ⟨{ str := .debugOut, sz := 0 }, App.Store.off fun _ => 0#32⟩
    let args := [cstring "-a" (by decide), cstring "b" (by decide)]
    args.foldl argMask s.printMask = 0x2#32 ∧
      (∃ s', level args s = some s' ∧ s'.printMask = 0#32) ∧ ¬ TakesEach args s (level args s) := by
  intro s args
  obtain ⟨s', hlevel, hmask, -⟩ := exists_level args s
  have hfold : args.foldl argMask s.printMask = 0x2#32 := by decide
  have hzero : s'.printMask = 0#32 := hmask.trans (by decide)
  refine ⟨hfold, ⟨s', hlevel, hzero⟩, ?_⟩
  rintro ⟨s'', hs, htakes, -⟩
  rw [hlevel] at hs
  rw [← Option.some.inj hs, hzero, hfold] at htakes
  exact absurd htakes (by decide)

end Debug

end AntTracer
