import AntTracer.Command.Lines
import AntTracer.Library.Runs

/-!
# The command line reader

`CommandLoop` is called over and over; a call takes at most one character from
the debug port. What it has taken and what it has done with each line is kept
here beside its variables. `Port` says when a call takes a character: the
first call with room for the greeting takes none, and later ones take one
where there is room for an answer.

The lines are then a function of the characters taken. A CR, an LF and a CR
LF are one line end (`lineEnds`), a backspace deletes the last character kept
and a printable one is kept while there is room (`edit`), and a complete line
goes to the command that its first word names (`outcome`).
-/

namespace AntTracer

namespace Command

open Stores Debug

/-! ## Names -/

/-- A command of `CommandList`: `Cmd_t` without its help. What the command
does is what it leaves in the arrays it is called with. -/
structure Cmd where
  func : ℕ → Mem → Mem
  cmd : Option CString
  cmd1 : Option CString := none

/-- The test `c >= 'A' && c <= 'Z'`. -/
def IsUpper (c : Byte) : Prop := ch 'A' ≤ c ∧ c ≤ ch 'Z'

instance : DecidablePred IsUpper := fun _ => inferInstanceAs (Decidable (_ ∧ _))

/-- A character without its case. -/
def lower (c : Byte) : Byte := if IsUpper c then c + (ch 'a' - ch 'A') else c

/-- `StrcmpCmd`, on the characters before the NULs. -/
def strcmpCmd : List Byte → List Byte → ℕ
  | [], [] => 0
  | [], _ :: _ => 2
  | c :: cmd, [] => if ∃ d ∈ c :: cmd, IsUpper d then 2 else 1
  | c :: cmd, d :: text => if lower c ≠ lower d then 2 else strcmpCmd cmd text

/-- The test `cp->cmd && StrcmpCmd(cp->cmd, cmd) <= 1`. -/
def IsNamed (text : List Byte) (name : Option CString) : Prop :=
  ∃ s ∈ name, strcmpCmd s.chars text ≤ 1

instance (text : List Byte) : DecidablePred (IsNamed text)
  | none => .isFalse fun ⟨_, h, _⟩ => nomatch h
  | some s => decidable_of_iff (strcmpCmd s.chars text ≤ 1) (by simp [IsNamed])

/-- `matchCmd`. -/
def matchCmd : List Cmd → List Byte → Option Cmd
  | [], _ => none
  | cp :: cpp, cmd =>
    if IsNamed cmd cp.cmd ∨ IsNamed cmd cp.cmd1 then some cp else matchCmd cpp cmd

/-- **Abbreviations.** A text is taken for a name when it is the beginning of
it, whatever the case, and what is left out has no upper case. -/
theorem strcmpCmd_le_one_iff (cmd text : List Byte) : strcmpCmd cmd text ≤ 1 ↔
    text.map lower <+: cmd.map lower ∧ ∀ c ∈ cmd.drop text.length, ¬ IsUpper c := by
  induction cmd, text using strcmpCmd.induct with
  | case1 => simp [strcmpCmd]
  | case2 d text => simp [strcmpCmd]
  | case3 c cmd hupper =>
    obtain ⟨d, hd, hupper'⟩ := hupper
    rw [strcmpCmd, if_pos ⟨d, hd, hupper'⟩]
    exact iff_of_false (by decide) fun h => h.2 d hd hupper'
  | case4 c cmd hupper =>
    rw [strcmpCmd, if_neg hupper]
    exact iff_of_true le_rfl ⟨List.nil_prefix, fun d hd hupper' => hupper ⟨d, hd, hupper'⟩⟩
  | case5 c cmd d text hne =>
    rw [strcmpCmd, if_pos hne, List.map_cons, List.map_cons, List.cons_prefix_cons]
    exact iff_of_false (by decide) fun h => hne h.1.1.symm
  | case6 c cmd d text heq ih =>
    rw [strcmpCmd, if_neg heq, ih, List.map_cons, List.map_cons, List.cons_prefix_cons,
      List.length_cons, List.drop_succ_cons, not_not.1 heq]
    simp only [true_and]

/-! ## `CommandLoop` -/

/-- What became of a line: nothing was typed, no command has the name, or a
command was called, with `argc` and the entries of `argv`. -/
inductive Outcome where
  | nothing
  | unknown (name : List Byte)
  | call (cmd : Cmd) (argc : ℕ) (argv : List (Option (List Byte)))

/-- A complete line, as it stood in `line`, and what became of it. -/
structure Entry where
  text : List Byte
  outcome : Outcome

/-- The variables of `CommandLoop`, the characters that the debug port holds
for it, those it has shown, and the lines it has done. -/
structure Cli where
  beenHere : Bool := false
  cr : Bool := false
  linep : ℕ := 0
  mem : Mem := {}
  input : List Byte := []
  shown : List Byte := []
  done : List Entry := []

/-- A text that is shown. -/
def text (s : String) : List Byte := s.toList.map ch

/-- `dprintf`. -/
def Cli.dprintf (s : Cli) (cs : List Byte) : Cli := { s with shown := s.shown ++ cs }

/-- What is kept of a complete line. -/
def Cli.finish (s : Cli) (mem : Mem) (line : List Byte) (o : Outcome) : Cli :=
  { s with mem := mem, done := s.done ++ [⟨line, o⟩] }

/-- The label `prompt`. -/
def Cli.prompt (s : Cli) : Cli := s.dprintf (text "Tracer> ")

variable (commandList : List Cmd)

/-- The end of `CommandLoop`, from the complete line on. -/
def lineDone (s : Cli) : Option Cli := do
  let line := block s.mem.line 0 s.linep
  let s := { s with linep := 0 }
  let r ← splitWords s.mem 0 0
  if r.2 = 0 then some (s.finish r.1 line .nothing).prompt
  else do
    let args ← clearArgs r.1.args r.2
    let mem : Mem := ⟨r.1.line, args⟩
    let p ← mem.args 0
    let name ← strAt mem.line p
    match matchCmd commandList name with
    | some cmd => do
      let argv ← argv mem
      some (s.finish (cmd.func r.2 mem) line (.call cmd r.2 argv)).prompt
    | none =>
      let s := s.dprintf (text "Unknown command: " ++ name ++ text "\n")
      some (s.finish mem line (.unknown name)).prompt

/-- The `switch` on the character. -/
def lineChar (c : Byte) (s : Cli) : Option Cli :=
  if c = ch '\r' ∨ c = ch '\n' then do
    let s := s.dprintf (text "\n")
    let line ← store lineSize s.mem.line s.linep 0#8
    lineDone commandList { s with mem := ⟨line, s.mem.args⟩ }
  else if c = 0x08#8 then
    if s.linep > 0 then
      some ({ s with linep := s.linep - 1 }.dprintf [0x08#8, ch ' ', 0x08#8])
    else some s
  else if ch ' ' ≤ c ∧ c ≤ ch '~' ∧ s.linep < lineSize - 1 then do
    let line ← store lineSize s.mem.line s.linep c
    some ({ s with mem := ⟨line, s.mem.args⟩, linep := s.linep + 1 }.dprintf [c])
  else some s

/-- What `CommandLoop` does with a character: the fold of CR and LF, and the
line processing. -/
def newChar (c : Byte) (s : Cli) : Option Cli :=
  if c = ch '\r' then lineChar commandList (ch '\n') { s with cr := true }
  else if s.cr ∧ c = ch '\n' then some { s with cr := false }
  else lineChar commandList c { s with cr := false }

/-- `CommandLoop`, with what `DebugPutAvail` returns. -/
def commandLoop (avail : ℤ) (s : Cli) : Option Cli :=
  if ¬ s.beenHere then
    if avail < 80 then some s
    else
      let s := s.dprintf (text
        "\nTracer debugger        (type \"help\" for more information)\n\n")
      some { s with beenHere := true }.prompt
  else if avail < 32 then some s
  else match s.input with
    | [] => some s
    | c :: input => newChar commandList c { s with input := input }

/-- A character arrives at the debug port, or `CommandLoop` is called. -/
inductive Event where
  | arrive (c : Byte)
  | call (avail : ℤ)

/-- One event. -/
def step (s : Cli) : Event → Option Cli
  | .arrive c => some { s with input := s.input ++ [c] }
  | .call avail => commandLoop commandList avail s

/-! ## What was typed -/

/-- The debug port: whether the greeting was shown, the characters taken from
it, and those it holds. -/
structure Port where
  greeted : Bool := false
  taken : List Byte := []
  waiting : List Byte := []

/-- When a character is taken. -/
def Port.step (p : Port) : Event → Port
  | .arrive c => { p with waiting := p.waiting ++ [c] }
  | .call avail =>
    if ¬ p.greeted then { p with greeted := 80 ≤ avail }
    else if avail < 32 then p
    else match p.waiting with
      | [] => p
      | c :: waiting => { p with taken := p.taken ++ [c], waiting := waiting }

/-- The characters of a run, in the order they came. -/
def arrivals (es : List Event) : List Byte :=
  es.filterMap fun
    | .arrive c => some c
    | .call _ => none

/-- What a line is for: its first word names a command, and the command gets
the words. -/
def outcome (t : List Byte) : Outcome :=
  match words t with
  | [] => .nothing
  | w :: ws =>
    match matchCmd commandList w with
    | none => .unknown w
    | some cmd => .call cmd (min (w :: ws).length (argsSize - 1)) (entries (w :: ws))

variable {commandList : List Cmd} {cs t : List Byte} {c : Byte}

/-! ## The reader follows what was typed -/

/-- What the reader has done and what it holds are what the characters taken
say. -/
structure Follows (commandList : List Cmd) (cs : List Byte) (s : Cli) : Prop where
  cr : s.cr = true ↔ cs.getLast? = some (ch '\r')
  linep : s.linep = (current cs).length
  line : block s.mem.line 0 s.linep = current cs
  done : s.done = (texts cs).map fun t => ⟨t, outcome commandList t⟩

variable {s : Cli}

/-- **A complete line** goes to its command, and the next one starts at the
first character of `line`. -/
theorem lineDone_spec (commandList : List Cmd) (h : Holds s.mem.line 0 t)
    (hlinep : s.linep = t.length) :
    ∃ mem shown, lineDone commandList s = some ⟨s.beenHere, s.cr, 0, mem, s.input, shown,
      s.done ++ [⟨t, outcome commandList t⟩]⟩ := by
  obtain ⟨line', ps, hsplit, -, hps⟩ := splitWords_spec h (Nat.zero_le (argsSize - 1))
  rw [Nat.zero_add] at hsplit
  rw [Nat.sub_zero] at hps
  unfold lineDone outcome
  rw [hlinep, h.block_eq]
  simp only [bind, Option.bind_some, hsplit]
  cases hw : words t with
  | nil =>
    rw [hw, List.take_nil] at hps
    cases hps
    exact ⟨_, _, rfl⟩
  | cons w ws =>
    rw [hw] at hps
    have hlen := hps.length_eq
    have hcount : ps.length = min (w :: ws).length (argsSize - 1) := by
      rw [hlen, List.length_take, min_comm]
    have hclear := clearArgs_eq (place s.mem.args 0 (ps.map some)) ps.length
      (by rw [hcount]; omega)
    have hargv := argv_eq s.mem.args hps
    cases hps with
    | cons hword hrest =>
      rename_i p ps
      have hfirst : place (place s.mem.args 0 ((p :: ps).map some)) (p :: ps).length
          (List.replicate (argsSize - (p :: ps).length) none) 0 = some p := by
        rw [place_of_lt (by rw [List.length_cons]; omega)]
        exact place_add (l := (p :: ps).map some) (i := 0) (Nat.succ_pos _)
      have hpos : (p :: ps).length ≠ 0 := Nat.succ_ne_zero _
      simp only [hclear, hargv, hfirst, strAt_eq hword, Option.bind_some, if_neg hpos]
      rw [hcount]
      cases matchCmd commandList w with
      | none => exact ⟨_, _, rfl⟩
      | some cmd => exact ⟨_, _, rfl⟩

/-- A line that the reader holds can be ended. -/
theorem Follows.holds (h : Follows commandList cs s) :
    Holds (Function.update s.mem.line s.linep 0#8) 0 (current cs) := by
  obtain ⟨hlen, hprint⟩ := edit_spec ((pieces cs).getLastD [])
  refine ⟨by rwa [Nat.zero_add], ?_, hprint⟩
  have hcells := block_update_succ (m := s.mem.line) (a := 0) (n := s.linep) 0#8
  rw [Nat.zero_add, h.line] at hcells
  rwa [← h.linep]

/-- **The end of a line**, after either character. -/
theorem Follows.lineEnd (h : Follows commandList cs s)
    (hfold : ¬ (cs.getLast? = some (ch '\r') ∧ c = ch '\n')) (hc : c = ch '\r' ∨ c = ch '\n') :
    ∃ s', lineChar commandList (ch '\n') { s with cr := c = ch '\r' } = some s' ∧
      s'.beenHere = s.beenHere ∧ s'.input = s.input ∧ Follows commandList (cs ++ [c]) s' := by
  obtain ⟨htexts, hcurrent⟩ := lines_end hfold hc
  have hlt : s.linep < lineSize := h.linep ▸ current_length_lt cs
  obtain ⟨mem, shown, hdone⟩ := lineDone_spec commandList
    (s := ⟨s.beenHere, c = ch '\r', s.linep, ⟨Function.update s.mem.line s.linep 0#8, s.mem.args⟩,
      s.input, s.shown ++ text "\n", s.done⟩) h.holds h.linep
  refine ⟨⟨s.beenHere, c = ch '\r', 0, mem, s.input, shown,
    s.done ++ [⟨current cs, outcome commandList (current cs)⟩]⟩, ?_, rfl, rfl, ?_, ?_, ?_, ?_⟩
  · unfold lineChar
    rw [if_pos (Or.inr rfl)]
    simp only [bind, Cli.dprintf, store_of_lt s.mem.line 0#8 hlt, Option.bind_some]
    exact hdone
  · rw [List.getLast?_concat, Option.some_inj, decide_eq_true_iff]
  · rw [hcurrent]
    rfl
  · rw [hcurrent]
    rfl
  · rw [htexts, List.map_append, ← h.done]
    rfl

/-- The reader follows a character of a line when its line is edited by it. -/
theorem Follows.edited {s' : Cli} (h : Follows commandList cs s) (hcr : c ≠ ch '\r')
    (hlf : c ≠ ch '\n') (hs : s'.cr = false ∧ s'.done = s.done)
    (hlinep : s'.linep = (editChar (current cs) c).length)
    (hline : block s'.mem.line 0 s'.linep = editChar (current cs) c) :
    Follows commandList (cs ++ [c]) s' := by
  obtain ⟨htexts, hcurrent⟩ := lines_char cs hcr hlf
  refine ⟨?_, hcurrent ▸ hlinep, hcurrent ▸ hline, ?_⟩
  · rw [hs.1, List.getLast?_concat, Option.some_inj]
    exact iff_of_false Bool.false_ne_true hcr
  · rw [hs.2, htexts, h.done]

/-- **A character of a line**: a backspace, a printable one, or another. -/
theorem Follows.char (h : Follows commandList cs s) (hcr : c ≠ ch '\r') (hlf : c ≠ ch '\n') :
    ∃ s', lineChar commandList c { s with cr := false } = some s' ∧
      s'.beenHere = s.beenHere ∧ s'.input = s.input ∧ Follows commandList (cs ++ [c]) s' := by
  unfold lineChar
  rw [if_neg (not_or_intro hcr hlf)]
  by_cases hb : c = 0x08#8
  · have hdrop : editChar (current cs) c = (current cs).dropLast := if_pos hb
    rw [if_pos hb]
    split_ifs with hpos
    · refine ⟨_, rfl, rfl, rfl, h.edited hcr hlf ⟨rfl, rfl⟩ ?_ ?_⟩
      · rw [hdrop, List.length_dropLast, ← h.linep]
        rfl
      · have hblock := block_take (m := s.mem.line) (a := 0) (n := s.linep) (k := s.linep - 1)
        rw [h.line, min_eq_left (Nat.sub_le ..), h.linep, ← List.dropLast_eq_take] at hblock
        rw [hdrop, hblock, ← h.linep]
        rfl
    · -- there is nothing to delete
      have hzero : s.linep = 0 := Nat.eq_zero_of_not_pos hpos
      have hempty : current cs = [] := List.length_eq_zero_iff.1 (h.linep.symm.trans hzero)
      have hsame : editChar (current cs) c = current cs := by
        rw [hdrop, hempty, List.dropLast_nil]
      exact ⟨_, rfl, rfl, rfl, h.edited hcr hlf ⟨rfl, rfl⟩
        (h.linep.trans (congrArg List.length hsame.symm)) (h.line.trans hsame.symm)⟩
  rw [if_neg hb]
  by_cases hp : IsPrintable c ∧ (current cs).length < lineSize - 1
  · have hkeep : editChar (current cs) c = current cs ++ [c] := by
      rw [editChar, if_neg hb, if_pos hp]
    have hroom : s.linep < lineSize - 1 := h.linep ▸ hp.2
    have hlt : s.linep < lineSize := h.linep ▸ current_length_lt cs
    rw [if_pos ⟨hp.1.1, hp.1.2, hroom⟩]
    simp only [bind, store_of_lt s.mem.line c hlt, Option.bind_some]
    refine ⟨_, rfl, rfl, rfl, h.edited hcr hlf ⟨rfl, rfl⟩ ?_ ?_⟩
    · rw [hkeep, List.length_append, ← h.linep]
      rfl
    · have hblock := block_update_succ (m := s.mem.line) (a := 0) (n := s.linep) c
      rw [Nat.zero_add, h.line] at hblock
      rw [hkeep, ← hblock]
      rfl
  · -- the character is left out
    have hsame : editChar (current cs) c = current cs := by
      rw [editChar, if_neg hb, if_neg hp]
    rw [if_neg fun hc => hp ⟨⟨hc.1, hc.2.1⟩, h.linep ▸ hc.2.2⟩]
    exact ⟨_, rfl, rfl, rfl, h.edited hcr hlf ⟨rfl, rfl⟩
      (h.linep.trans (congrArg List.length hsame.symm)) (h.line.trans hsame.symm)⟩

/-- **One character.** The reader does with it what the characters taken say,
and takes no other. -/
theorem Follows.newChar (h : Follows commandList cs s) (c : Byte) :
    ∃ s', newChar commandList c s = some s' ∧ s'.beenHere = s.beenHere ∧ s'.input = s.input ∧
      Follows commandList (cs ++ [c]) s' := by
  unfold Command.newChar
  by_cases hcr : c = ch '\r'
  · have hend := h.lineEnd (c := c) (fun hf => absurd (hcr.symm.trans hf.2) (by decide)) (.inl hcr)
    rw [if_pos hcr]
    rwa [decide_eq_true hcr] at hend
  rw [if_neg hcr]
  by_cases hfold : s.cr ∧ c = ch '\n'
  · obtain ⟨htexts, hcurrent⟩ := lines_fold ⟨h.cr.1 hfold.1, hfold.2⟩
    rw [if_pos hfold]
    refine ⟨_, rfl, rfl, rfl, ?_, ?_, ?_, ?_⟩
    · rw [List.getLast?_concat, Option.some_inj]
      exact iff_of_false Bool.false_ne_true hcr
    · rw [hcurrent]
      exact h.linep
    · rw [hcurrent]
      exact h.line
    · rw [htexts]
      exact h.done
  rw [if_neg hfold]
  by_cases hlf : c = ch '\n'
  · have hend := h.lineEnd (fun hf => hfold ⟨h.cr.2 hf.1, hf.2⟩) (.inr hlf)
    rw [decide_eq_false hcr] at hend
    exact hlf ▸ hend
  · exact h.char hcr hlf

/-- The reader has shown the greeting, holds and has done what the port and
the characters taken from it say. -/
structure Keeps (commandList : List Cmd) (p : Port) (s : Cli) : Prop where
  beenHere : s.beenHere = p.greeted
  input : s.input = p.waiting
  follows : Follows commandList p.taken s

theorem Keeps.step {p : Port} (h : Keeps commandList p s) (e : Event) :
    ∃ s', step commandList s e = some s' ∧ Keeps commandList (p.step e) s' := by
  cases e with
  | arrive c =>
    exact ⟨_, rfl, h.beenHere, congrArg (· ++ [c]) h.input, h.follows.cr, h.follows.linep,
      h.follows.line, h.follows.done⟩
  | call avail =>
    rw [Command.step, commandLoop, Port.step, ← h.beenHere, ← h.input]
    split_ifs with hgreeted hroom hroom
    · exact ⟨s, rfl, h⟩
    · cases s.input with
      | nil => exact ⟨s, rfl, h⟩
      | cons c waiting =>
        have hs : Follows commandList p.taken { s with input := waiting } :=
          ⟨h.follows.cr, h.follows.linep, h.follows.line, h.follows.done⟩
        obtain ⟨s', hnew, hbeen, hinput, hfollows⟩ := hs.newChar c
        exact ⟨s', hnew, hbeen, hinput, hfollows⟩
    · refine ⟨s, rfl, ?_, rfl, h.follows⟩
      rw [eq_false_of_ne_true hgreeted]
      exact (decide_eq_false (by omega)).symm
    · exact ⟨_, rfl, (decide_eq_true (by omega)).symm, rfl, h.follows.cr, h.follows.linep,
        h.follows.line, h.follows.done⟩

/-- The port after a run of events. -/
def port (es : List Event) : Port := Runs.run Port.step {} es

/-- An event loses no character. -/
theorem Port.step_taken_append_waiting (p : Port) (e : Event) :
    (p.step e).taken ++ (p.step e).waiting = p.taken ++ p.waiting ++ arrivals [e] := by
  obtain ⟨greeted, taken, waiting⟩ := p
  cases e with
  | arrive c => exact (List.append_assoc ..).symm
  | call avail =>
    have harrivals : arrivals [.call avail] = [] := rfl
    rw [harrivals, List.append_nil, Port.step]
    split_ifs
    · rfl
    · cases waiting with
      | nil => rfl
      | cons c waiting => exact List.append_assoc taken [c] waiting
    · rfl

/-- No character is lost, and none is taken twice. -/
theorem port_taken_append_waiting (es : List Event) :
    (port es).taken ++ (port es).waiting = arrivals es := by
  induction es using List.reverseRecOn with
  | nil => rfl
  | append_singleton es e ih =>
    have hport : port (es ++ [e]) = (port es).step e := Runs.run_append ..
    rw [hport, Port.step_taken_append_waiting, ih, arrivals, arrivals, arrivals,
      List.filterMap_append]

theorem exists_keeps (commandList : List Cmd) (es : List Event) :
    ∃ s, es.foldlM (step commandList) {} = some s ∧ Keeps commandList (port es) s :=
  Runs.exists_foldlM_run (fun _ _ e h => h.step e)
    ⟨rfl, rfl, iff_of_false Bool.false_ne_true (by decide), rfl, rfl, rfl⟩ es

/-- **The reader does what was typed.** Whatever comes and however often the
loop is called, it has a result. Each complete line is what its characters
give, and was done as its words say; the line that is being typed is in
`line`, with room for its NUL; what was not taken still waits. -/
theorem commandLoop_typed (commandList : List Cmd) (es : List Event) :
    ∃ s, es.foldlM (step commandList) {} = some s ∧ s.linep < lineSize ∧
      s.done = (texts (port es).taken).map (fun t => ⟨t, outcome commandList t⟩) ∧
      block s.mem.line 0 s.linep = current (port es).taken ∧
      (port es).taken ++ s.input = arrivals es := by
  obtain ⟨s, hrun, hkeeps⟩ := exists_keeps commandList es
  have hfollows := hkeeps.follows
  refine ⟨s, hrun, hfollows.linep ▸ current_length_lt _, hfollows.done, hfollows.line, ?_⟩
  rw [hkeeps.input, port_taken_append_waiting]

/-- The command of `cmd.c`, which leaves the arrays as they are. -/
def help : Cmd where
  func := fun _ mem => mem
  cmd := some ⟨text "HELP", by decide⟩
  cmd1 := some ⟨text "?", by decide⟩

/-- **A line of spaces.** It has characters but no word, and no command is
looked up. -/
theorem commandLoop_space :
    ∃ s, [.call 80, .arrive (ch ' '), .arrive (ch '\r'), .call 32, .call 32].foldlM (step [help]) {}
      = some s ∧ s.done = [⟨[ch ' '], .nothing⟩] := by
  obtain ⟨s, hrun, hkeeps⟩ := exists_keeps [help]
    [.call 80, .arrive (ch ' '), .arrive (ch '\r'), .call 32, .call 32]
  exact ⟨s, hrun, hkeeps.follows.done⟩

end Command

end AntTracer
