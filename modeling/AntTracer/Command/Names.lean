import AntTracer.Command.CommandLoop

/-!
# The names of commands

`StrcmpCmd` walks along a name and a text at once, over memory that ends with
their NULs: `strcmpMem_eq` says that it reads nothing behind them and finds
what `strcmpCmd` says of the characters. `matchPtr_abbreviated` has the meaning
of its three results, and of the walk along the command list.
-/

namespace AntTracer

namespace Command

open Debug

/-! ## The source -/

/-- The inner loop of `StrcmpCmd`, over the memory from `cmd` on. -/
def strcmpRest : List Byte → Option ℕ
  | [] => none
  | c :: cmd => if c = 0#8 then some 1 else if IsUpper c then some 2 else strcmpRest cmd

/-- The loop of `StrcmpCmd`, over the memory from `cmd` and from `text` on. -/
def strcmpMem : List Byte → List Byte → Option ℕ
  | c₁ :: cmd, c₂ :: text =>
    if lower c₁ ≠ lower c₂ then
      if lower c₂ = 0#8 then strcmpRest (c₁ :: cmd) else some 2
    else if c₁ ≠ 0#8 then strcmpMem cmd text
    else some 0
  | _, _ => none

/-- The memory that a string has, with its NUL. -/
def inMemory (s : CString) : List Byte := s.chars ++ [0#8]

/-- `StrcmpCmd`. A pointer may be null. -/
def strcmpPtr : Option CString → Option CString → Option ℕ
  | some cmd, some text => strcmpMem (inMemory cmd) (inMemory text)
  | _, _ => some 0

/-- The test of `matchCmd` for one of the names. -/
def namedPtr (name : Option CString) (cmd : CString) : Option Bool :=
  match name with
  | none => some false
  | some name => do
    let r ← strcmpPtr (some name) (some cmd)
    some (decide (r ≤ 1))

/-- `matchCmd`. -/
def matchPtr : List Cmd → CString → Option (Option Cmd)
  | [], _ => some none
  | cp :: cpp, cmd => do
    let named ← namedPtr cp.cmd cmd
    let named ← if named then some true else namedPtr cp.cmd1 cmd
    if named then some (some cp) else matchPtr cpp cmd

/-! ## What a text stands for -/

/-- The text is the name, whatever the case. -/
def SameName (cmd text : List Byte) : Prop := text.map lower = cmd.map lower

/-- The text is the beginning of the name, whatever the case, and what is left
out is there and has no upper case. -/
def ShortFor (cmd text : List Byte) : Prop :=
  text.map lower <+: cmd.map lower ∧ text.length < cmd.length ∧
    ∀ c ∈ cmd.drop text.length, ¬ IsUpper c

/-- The text is one of the names of the command, or short for one. -/
def Abbreviates (text : List Byte) (cp : Cmd) : Prop :=
  ∃ name, (name ∈ cp.cmd ∨ name ∈ cp.cmd1) ∧
    (SameName name.chars text ∨ ShortFor name.chars text)

/-- `lev` is short for `LEVel`, and `le` is not. -/
example : let name : CString := ⟨text "LEVel", by decide⟩
    strcmpPtr (some name) (some ⟨text "lev", by decide⟩) = some 1 ∧
      strcmpPtr (some name) (some ⟨text "le", by decide⟩) = some 2 := by decide

variable {cmd text : List Byte} {c : Byte}

/-! ## `StrcmpCmd` -/

theorem lower_eq_zero_iff : lower c = 0#8 ↔ c = 0#8 := by
  constructor
  · intro h
    unfold lower at h
    split at h
    · rename_i hupper
      have hA : (ch 'A').toNat = 65 := rfl
      have hZ : (ch 'Z').toNat = 90 := rfl
      have hdiff : (ch 'a' - ch 'A').toNat = 32 := rfl
      obtain ⟨hlo, hhi⟩ := hupper
      have hsum := congrArg BitVec.toNat h
      rw [BitVec.le_def] at hlo hhi
      rw [BitVec.toNat_add, BitVec.toNat_zero] at hsum
      omega
    · exact h
  · rintro rfl
    decide

/-- The rest of a name is read up to its NUL. -/
theorem strcmpRest_eq (h : 0#8 ∉ cmd) :
    strcmpRest (cmd ++ [0#8]) = some (if ∃ d ∈ cmd, IsUpper d then 2 else 1) := by
  induction cmd with
  | nil => rfl
  | cons c cmd ih =>
    obtain ⟨hc, hcmd⟩ := not_or.1 (mt List.mem_cons.2 h)
    rw [List.cons_append, strcmpRest, if_neg (Ne.symm hc)]
    by_cases hupper : IsUpper c
    · rw [if_pos hupper, if_pos ⟨c, List.mem_cons_self, hupper⟩]
    · rw [if_neg hupper, ih hcmd]
      simp [hupper]

/-- **Nothing is read behind the NULs**, and the result depends on the
characters before them. -/
theorem strcmpMem_eq (hcmd : 0#8 ∉ cmd) (htext : 0#8 ∉ text) :
    strcmpMem (cmd ++ [0#8]) (text ++ [0#8]) = some (strcmpCmd cmd text) := by
  have hnul : lower 0#8 = 0#8 := lower_eq_zero_iff.2 rfl
  induction cmd, text using strcmpCmd.induct with
  | case1 => rfl
  | case2 d text =>
    have hd : lower d ≠ 0#8 := mt lower_eq_zero_iff.1 (Ne.symm (List.ne_of_not_mem_cons htext))
    rw [List.nil_append, List.cons_append, strcmpMem, hnul, if_pos hd.symm, if_neg hd, strcmpCmd]
  | case3 c cmd hupper =>
    have hc : lower c ≠ 0#8 := mt lower_eq_zero_iff.1 (Ne.symm (List.ne_of_not_mem_cons hcmd))
    have hrest := strcmpRest_eq hcmd
    rw [List.nil_append, List.cons_append, strcmpMem, hnul, if_pos hc, if_pos rfl, strcmpCmd]
    exact hrest
  | case4 c cmd hupper =>
    have hc : lower c ≠ 0#8 := mt lower_eq_zero_iff.1 (Ne.symm (List.ne_of_not_mem_cons hcmd))
    have hrest := strcmpRest_eq hcmd
    rw [List.nil_append, List.cons_append, strcmpMem, hnul, if_pos hc, if_pos rfl, strcmpCmd]
    exact hrest
  | case5 c cmd d text hne =>
    have hd : lower d ≠ 0#8 := mt lower_eq_zero_iff.1 (Ne.symm (List.ne_of_not_mem_cons htext))
    rw [List.cons_append, List.cons_append, strcmpMem, if_pos hne, if_neg hd, strcmpCmd,
      if_pos hne]
  | case6 c cmd d text heq ih =>
    have hc : c ≠ 0#8 := Ne.symm (List.ne_of_not_mem_cons hcmd)
    rw [List.cons_append, List.cons_append, strcmpMem, if_neg heq, if_pos hc, strcmpCmd,
      if_neg heq]
    exact ih (List.not_mem_of_not_mem_cons hcmd) (List.not_mem_of_not_mem_cons htext)

theorem strcmpPtr_eq (cmd text : CString) :
    strcmpPtr (some cmd) (some text) = some (strcmpCmd cmd.chars text.chars) :=
  strcmpMem_eq cmd.noNul text.noNul

/-- It is 0 for the name, in any case. -/
theorem strcmpCmd_eq_zero_iff (cmd text : List Byte) :
    strcmpCmd cmd text = 0 ↔ SameName cmd text := by
  unfold SameName
  induction cmd, text using strcmpCmd.induct with
  | case1 => simp [strcmpCmd]
  | case2 d text => simp [strcmpCmd]
  | case3 c cmd hupper =>
    rw [strcmpCmd, if_pos hupper]
    exact iff_of_false (by decide) (List.cons_ne_nil _ _).symm
  | case4 c cmd hupper =>
    rw [strcmpCmd, if_neg hupper]
    exact iff_of_false (by decide) (List.cons_ne_nil _ _).symm
  | case5 c cmd d text hne =>
    rw [strcmpCmd, if_pos hne, List.map_cons, List.map_cons, List.cons.injEq]
    exact iff_of_false (by decide) fun h => hne h.1.symm
  | case6 c cmd d text heq ih =>
    rw [strcmpCmd, if_neg heq, ih, List.map_cons, List.map_cons, List.cons.injEq,
      and_iff_right (not_not.1 heq).symm]

theorem strcmpCmd_le_two (cmd text : List Byte) : strcmpCmd cmd text ≤ 2 := by
  induction cmd, text using strcmpCmd.induct with
  | case1 => decide
  | case2 d text => rw [strcmpCmd]
  | case3 c cmd hupper => rw [strcmpCmd, if_pos hupper]
  | case4 c cmd hupper =>
    rw [strcmpCmd, if_neg hupper]
    decide
  | case5 c cmd d text hne => rw [strcmpCmd, if_pos hne]
  | case6 c cmd d text heq ih => rwa [strcmpCmd, if_neg heq]

/-- It is 1 for a text that is short for the name. -/
theorem strcmpCmd_eq_one_iff (cmd text : List Byte) :
    strcmpCmd cmd text = 1 ↔ ShortFor cmd text := by
  have hle := strcmpCmd_le_one_iff cmd text
  have hzero := strcmpCmd_eq_zero_iff cmd text
  have hone : strcmpCmd cmd text = 1 ↔ strcmpCmd cmd text ≤ 1 ∧ strcmpCmd cmd text ≠ 0 := by omega
  have hproper : text.map lower <+: cmd.map lower →
      (¬ SameName cmd text ↔ text.length < cmd.length) := by
    intro hpre
    have hlen := hpre.length_le
    rw [List.length_map, List.length_map] at hlen
    constructor
    · refine fun hne => lt_of_le_of_ne hlen fun heq => hne (hpre.eq_of_length ?_)
      rw [List.length_map, List.length_map, heq]
    · intro hlt heq
      have hsame := congrArg List.length heq
      rw [List.length_map, List.length_map] at hsame
      omega
  rw [hone, hle, Ne, hzero, ShortFor]
  constructor
  · rintro ⟨⟨hpre, hrest⟩, hne⟩
    exact ⟨hpre, (hproper hpre).1 hne, hrest⟩
  · rintro ⟨hpre, hlt, hrest⟩
    exact ⟨⟨hpre, hrest⟩, (hproper hpre).2 hlt⟩

/-! ## `matchCmd` -/

theorem isNamed_iff (text : List Byte) (name : Option CString) :
    IsNamed text name ↔ ∃ s ∈ name, SameName s.chars text ∨ ShortFor s.chars text := by
  unfold IsNamed
  refine exists_congr fun s => and_congr_right fun _ => ?_
  rw [← strcmpCmd_eq_zero_iff, ← strcmpCmd_eq_one_iff]
  omega

/-- A command matches by either of its names. -/
theorem abbreviates_iff (text : List Byte) (cp : Cmd) :
    Abbreviates text cp ↔ IsNamed text cp.cmd ∨ IsNamed text cp.cmd1 := by
  rw [isNamed_iff, isNamed_iff, ← exists_or]
  exact exists_congr fun s => or_and_right

/-- The walk is a search. -/
theorem matchCmd_eq_find? (commandList : List Cmd) (text : List Byte) :
    matchCmd commandList text =
      commandList.find? fun cp => decide (IsNamed text cp.cmd ∨ IsNamed text cp.cmd1) := by
  induction commandList with
  | nil => rfl
  | cons cp cpp ih =>
    rw [matchCmd, List.find?_cons, ih]
    by_cases hnamed : IsNamed text cp.cmd ∨ IsNamed text cp.cmd1
    · rw [if_pos hnamed, decide_eq_true hnamed]
    · rw [if_neg hnamed, decide_eq_false hnamed]

theorem namedPtr_eq (name : Option CString) (text : CString) :
    namedPtr name text = some (decide (IsNamed text.chars name)) := by
  cases name with
  | none => rfl
  | some s =>
    have hnamed : IsNamed text.chars (some s) ↔ strcmpCmd s.chars text.chars ≤ 1 := by
      simp [IsNamed]
    rw [namedPtr, strcmpPtr_eq, Option.bind_eq_bind, Option.bind_some, decide_eq_decide.2 hnamed]

/-- **No name is read behind its NUL**, along the whole list. -/
theorem matchPtr_eq (commandList : List Cmd) (text : CString) :
    matchPtr commandList text = some (matchCmd commandList text.chars) := by
  induction commandList with
  | nil => rfl
  | cons cp cpp ih =>
    rw [matchPtr, matchCmd]
    simp only [namedPtr_eq, Option.bind_eq_bind, Option.bind_some, ih]
    by_cases hcmd : IsNamed text.chars cp.cmd
    · simp [hcmd]
    · by_cases hcmd1 : IsNamed text.chars cp.cmd1
      · simp [hcmd, hcmd1]
      · simp [hcmd, hcmd1]

/-- **Commands are found by their abbreviations.** Comparing a name with a
text returns, with nothing read behind the NULs: 0 for the same name in any
case, 1 for a text that is short for it, and 2 else. The command found is the
first with a name that the text is, or is short for. -/
theorem matchPtr_abbreviated (commandList : List Cmd) (text : CString) :
    (∀ cmd : CString, ∃ r, strcmpPtr (some cmd) (some text) = some r ∧
      (r = 0 ↔ SameName cmd.chars text.chars) ∧ (r = 1 ↔ ShortFor cmd.chars text.chars) ∧
      (r = 2 ↔ ¬ SameName cmd.chars text.chars ∧ ¬ ShortFor cmd.chars text.chars)) ∧
    ∃ found, matchPtr commandList text = some found ∧
      (∀ cp, found = some cp ↔ ∃ pre post, commandList = pre ++ cp :: post ∧
        Abbreviates text.chars cp ∧ ∀ c ∈ pre, ¬ Abbreviates text.chars c) ∧
      (found = none ↔ ∀ c ∈ commandList, ¬ Abbreviates text.chars c) := by
  refine ⟨fun cmd => ⟨_, strcmpPtr_eq cmd text, ?_⟩, _, matchPtr_eq commandList text, ?_, ?_⟩
  · have hle := strcmpCmd_le_two cmd.chars text.chars
    rw [← strcmpCmd_eq_zero_iff, ← strcmpCmd_eq_one_iff]
    refine ⟨Iff.rfl, Iff.rfl, ?_⟩
    omega
  · intro cp
    rw [matchCmd_eq_find?, List.find?_eq_some_iff_append]
    simp only [abbreviates_iff, decide_eq_true_eq, Bool.not_eq_true', decide_eq_false_iff_not]
    constructor
    · rintro ⟨hcp, pre, post, hlist, hpre⟩
      exact ⟨pre, post, hlist, hcp, hpre⟩
    · rintro ⟨pre, post, hlist, hcp, hpre⟩
      exact ⟨hcp, pre, post, hlist, hpre⟩
  · rw [matchCmd_eq_find?, List.find?_eq_none]
    simp only [abbreviates_iff, decide_eq_true_eq]

end Command

end AntTracer
