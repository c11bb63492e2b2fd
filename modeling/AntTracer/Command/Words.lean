import AntTracer.Debug.Printf

/-!
# The words of a command line

`CommandLoop` breaks a line up in place: `args` gets the address in `line` of
each word, and the blank behind a word becomes a NUL. Every access to the two
arrays is checked: there is no result when a load or a store is outside its
array. A loop makes one in every round, further on each time, and so it ends.

The words of a text are its pieces between spaces that are not empty.
`splitWords_spec` says that what the entries of `args` point to, after the
loop, are the words in order, as many as there is room for.
-/

namespace AntTracer

namespace Command

open Stores Debug

/-! ## The source -/

/-- `sizeof line`. -/
abbrev lineSize : ℕ := 256

/-- `sizeof args / sizeof args[0]`. -/
abbrev argsSize : ℕ := 16

/-- The arrays `line` and `args`. An entry of `args` is null or the address of
a character of `line`. -/
structure Mem where
  line : ℕ → Byte := fun _ => 0#8
  args : ℕ → Option ℕ := fun _ => none

section Checked

variable {α : Type*}

/-- A load from an array of `n` elements. -/
def fetch (n : ℕ) (m : ℕ → α) (i : ℕ) : Option α := if i < n then some (m i) else none

/-- A store in an array of `n` elements. -/
def store (n : ℕ) (m : ℕ → α) (i : ℕ) (v : α) : Option (ℕ → α) :=
  if i < n then some (Function.update m i v) else none

end Checked

/-- `while (*cp == ' ' || *cp == '\t')`. -/
def skipBlanks (line : ℕ → Byte) (cp : ℕ) : Option ℕ :=
  if cp < lineSize then
    if line cp = ch ' ' ∨ line cp = ch '\t' then skipBlanks line (cp + 1) else some cp
  else none
termination_by lineSize - cp

/-- `while (*cp != '\0' && *cp != ' ' && *cp != '\t')`. -/
def skipWord (line : ℕ → Byte) (cp : ℕ) : Option ℕ :=
  if cp < lineSize then
    if line cp ≠ 0#8 ∧ line cp ≠ ch ' ' ∧ line cp ≠ ch '\t' then skipWord line (cp + 1)
    else some cp
  else none
termination_by lineSize - cp

/-- The loop that breaks the command up into words, from `cp` and `ap` on, and
`ap` after it. -/
def splitWords (mem : Mem) (cp ap : ℕ) : Option (Mem × ℕ) :=
  if ap < argsSize - 1 then do
    let cp ← skipBlanks mem.line cp
    let c ← fetch lineSize mem.line cp
    if c = 0#8 then some (mem, ap)
    else do
      let args ← store argsSize mem.args ap (some cp)
      let cp ← skipWord mem.line (cp + 1)
      let c ← fetch lineSize mem.line cp
      if c ≠ 0#8 then do
        let line ← store lineSize mem.line cp 0#8
        splitWords ⟨line, args⟩ (cp + 1) (ap + 1)
      else splitWords ⟨mem.line, args⟩ cp (ap + 1)
  else some (mem, ap)
termination_by argsSize - ap

/-- `while (ap1 < &args[...])`: the entries from `ap` on are null. -/
def clearArgs (args : ℕ → Option ℕ) (ap : ℕ) : Option (ℕ → Option ℕ) :=
  if ap < argsSize then do
    let args ← store argsSize args ap none
    clearArgs args (ap + 1)
  else some args
termination_by argsSize - ap

/-! ## Strings in the line -/

/-- The string at an address of `line`, up to its NUL. -/
def strAt (line : ℕ → Byte) (cp : ℕ) : Option (List Byte) :=
  if cp < lineSize then
    if line cp = 0#8 then some [] else (strAt line (cp + 1)).map (line cp :: ·)
  else none
termination_by lineSize - cp

/-- What an entry of `args` points to. -/
def argAt (line : ℕ → Byte) : Option ℕ → Option (Option (List Byte))
  | none => some none
  | some p => (strAt line p).map some

/-- The entries of `args`, each as the string it points to. -/
def argv (mem : Mem) : Option (List (Option (List Byte))) :=
  (block mem.args 0 argsSize).mapM (argAt mem.line)

/-- The characters that a line keeps. -/
def IsPrintable (c : Byte) : Prop := ch ' ' ≤ c ∧ c ≤ ch '~'

instance : DecidablePred IsPrintable := fun _ => inferInstanceAs (Decidable (_ ∧ _))

/-- The text is in the line from `cp` on, with a NUL behind it. -/
structure Holds (line : ℕ → Byte) (cp : ℕ) (t : List Byte) : Prop where
  fits : cp + t.length < lineSize
  cells : block line cp (t.length + 1) = t ++ [0#8]
  printable : ∀ c ∈ t, IsPrintable c

/-- The words of a text. -/
def words (t : List Byte) : List (List Byte) := (t.splitOn (ch ' ')).filter (· ≠ [])

variable {line line' : ℕ → Byte} {cp ap : ℕ} {t w : List Byte} {c : Byte}

theorem IsPrintable.ne_nul (h : IsPrintable c) : c ≠ 0#8 := by
  rintro rfl
  exact absurd h (by decide)

theorem IsPrintable.ne_tab (h : IsPrintable c) : c ≠ ch '\t' := by
  rintro rfl
  exact absurd h (by decide)

theorem fetch_of_lt {α : Type*} {n i : ℕ} (m : ℕ → α) (h : i < n) : fetch n m i = some (m i) :=
  if_pos h

theorem store_of_lt {α : Type*} {n i : ℕ} (m : ℕ → α) (v : α) (h : i < n) :
    store n m i v = some (Function.update m i v) := if_pos h

theorem Holds.lt (h : Holds line cp t) : cp < lineSize := (Nat.le_add_right _ _).trans_lt h.fits

/-- At the end of a text is its NUL. -/
theorem Holds.line_nil (h : Holds line cp []) : line cp = 0#8 := by
  have hcells := h.cells
  rw [List.length_nil, block_succ] at hcells
  exact (List.cons.inj hcells).1

theorem Holds.line_cons (h : Holds line cp (c :: t)) : line cp = c := by
  have hcells := h.cells
  rw [block_succ, List.cons_append] at hcells
  exact (List.cons.inj hcells).1

theorem Holds.fetch_nil (h : Holds line cp []) : fetch lineSize line cp = some 0#8 := by
  rw [fetch_of_lt _ h.lt, h.line_nil]

theorem Holds.fetch_cons (h : Holds line cp (c :: t)) : fetch lineSize line cp = some c := by
  rw [fetch_of_lt _ h.lt, h.line_cons]

theorem Holds.tail (h : Holds line cp (c :: t)) : Holds line (cp + 1) t := by
  have hfits := h.fits
  have hcells := h.cells
  rw [List.length_cons] at hfits
  rw [block_succ, List.cons_append] at hcells
  exact ⟨by omega, (List.cons.inj hcells).2, fun d hd => h.printable d (List.mem_cons_of_mem _ hd)⟩

/-- What a text holds does not depend on the rest of the line. -/
theorem Holds.congr (h : Holds line cp t)
    (heq : ∀ i, cp ≤ i → i ≤ cp + t.length → line' i = line i) : Holds line' cp t := by
  refine ⟨h.fits, ?_, h.printable⟩
  rw [← h.cells]
  refine List.ext_getElem (by simp) fun i h₁ h₂ => ?_
  rw [block_length] at h₁
  rw [getElem_block, getElem_block, heq _ (by omega) (by omega)]

theorem strAt_eq (h : Holds line cp t) : strAt line cp = some t := by
  induction t generalizing cp with
  | nil =>
    rw [strAt, if_pos h.lt, if_pos h.line_nil]
  | cons c t ih =>
    have hc := (h.printable c List.mem_cons_self).ne_nul
    rw [strAt, if_pos h.lt, h.line_cons, if_neg hc, ih h.tail, Option.map_some]

theorem Holds.cons (h : Holds line (cp + 1) t) (hc : IsPrintable c) (hcp : line cp = c) :
    Holds line cp (c :: t) := by
  have hfits := h.fits
  refine ⟨by rw [List.length_cons]; omega, ?_, List.forall_mem_cons.2 ⟨hc, h.printable⟩⟩
  rw [List.length_cons, block_succ, h.cells, hcp, List.cons_append]

theorem Holds.block_eq (h : Holds line cp t) : block line cp t.length = t := by
  have htake := congrArg (List.take t.length) h.cells
  rwa [block_take, min_eq_left (Nat.le_succ _), List.take_left] at htake

theorem Holds.append (h : Holds line cp (w ++ t)) : Holds line (cp + w.length) t := by
  induction w generalizing cp with
  | nil => exact h
  | cons c w ih =>
    rw [List.length_cons, Nat.add_comm w.length, ← Nat.add_assoc]
    exact ih h.tail

/-- **The cut.** A NUL over the character behind a word leaves the word as a
string of its own. -/
theorem Holds.cut (h : Holds line cp (w ++ c :: t)) :
    Holds (Function.update line (cp + w.length) 0#8) cp w := by
  induction w generalizing cp with
  | nil =>
    have hfits := h.fits
    rw [List.nil_append, List.length_cons] at hfits
    refine ⟨by rw [List.length_nil]; omega, ?_, fun d hd => absurd hd List.not_mem_nil⟩
    rw [List.length_nil, block_succ, Nat.add_zero, Function.update_self]
    rfl
  | cons d w ih =>
    have htail := ih h.tail
    rw [List.length_cons, Nat.add_comm w.length, ← Nat.add_assoc]
    refine htail.cons (h.printable d List.mem_cons_self) ?_
    rw [Function.update_of_ne (by omega)]
    exact (List.cons.inj (block_succ.symm.trans h.cells)).1

/-! ## The loops over a text -/

/-- **The beginnings of a line**: it is empty, begins with a space, is one
word, or begins with a word and the space behind it. -/
theorem lineInduction {P : List Byte → Prop} (nil : P [])
    (space : ∀ t, P t → P (ch ' ' :: t)) (last : ∀ w, w ≠ [] → ch ' ' ∉ w → P w)
    (word : ∀ w t, w ≠ [] → ch ' ' ∉ w → P t → P (w ++ ch ' ' :: t)) (t : List Byte) : P t := by
  induction hn : t.length using Nat.strong_induction_on generalizing t with
  | _ n ih =>
    by_cases hmem : ch ' ' ∈ t
    · obtain ⟨w, rest, rfl, hw⟩ := List.eq_append_cons_of_mem hmem
      rw [List.length_append, List.length_cons] at hn
      have hrest := ih rest.length (by omega) rest rfl
      by_cases hne : w = []
      · subst hne
        exact space rest hrest
      · exact word w rest hne hw hrest
    · by_cases hne : t = []
      · rw [hne]
        exact nil
      · exact last t hne hmem

theorem words_nil : words [] = [] := by decide

theorem words_space (t : List Byte) : words (ch ' ' :: t) = words t := by
  rw [words, words, List.splitOn_cons_eq_if_modifyHead, if_pos (beq_self_eq_true _),
    List.filter_cons_of_neg (by simp)]

theorem words_last (hne : w ≠ []) (hw : ch ' ' ∉ w) : words w = [w] := by
  rw [words, List.splitOn_eq_singleton hw, List.filter_cons_of_pos (by simpa using hne),
    List.filter_nil]

theorem words_word (hne : w ≠ []) (hw : ch ' ' ∉ w) (t : List Byte) :
    words (w ++ ch ' ' :: t) = w :: words t := by
  rw [words, words, List.splitOn_append_cons_self_of_not_mem hw,
    List.filter_cons_of_pos (by simpa using hne)]

theorem skipBlanks_space (h : Holds line cp (ch ' ' :: t)) :
    skipBlanks line cp = skipBlanks line (cp + 1) := by
  rw [skipBlanks, if_pos h.lt, if_pos (.inl h.line_cons)]

theorem skipBlanks_nil (h : Holds line cp []) : skipBlanks line cp = some cp := by
  rw [skipBlanks, if_pos h.lt, h.line_nil, if_neg (by decide)]

theorem skipBlanks_cons (h : Holds line cp (c :: t)) (hc : c ≠ ch ' ') :
    skipBlanks line cp = some cp := by
  have htab := (h.printable c List.mem_cons_self).ne_tab
  rw [skipBlanks, if_pos h.lt, h.line_cons, if_neg (not_or.2 ⟨hc, htab⟩)]

/-- A word ends at the end of the text or at the space behind it. -/
theorem skipWord_eq (h : Holds line cp (w ++ t)) (hw : ch ' ' ∉ w)
    (ht : ∀ c ∈ t.head?, c = ch ' ') : skipWord line cp = some (cp + w.length) := by
  induction w generalizing cp with
  | nil =>
    rw [skipWord, if_pos h.lt]
    cases t with
    | nil =>
      rw [Holds.line_nil h, if_neg (by decide)]
      rfl
    | cons c t =>
      rw [Holds.line_cons h, ht c rfl, if_neg (by decide)]
      rfl
  | cons c w ih =>
    have hc := h.printable c List.mem_cons_self
    have hspace : c ≠ ch ' ' := fun heq => hw (heq ▸ List.mem_cons_self)
    have hgo : c ≠ 0#8 ∧ c ≠ ch ' ' ∧ c ≠ ch '\t' := ⟨hc.ne_nul, hspace, hc.ne_tab⟩
    rw [skipWord, if_pos h.lt, Holds.line_cons h, if_pos hgo,
      ih h.tail fun hmem => hw (List.mem_cons_of_mem _ hmem), List.length_cons, Nat.add_assoc,
      Nat.add_comm 1]

/-! ## The words in `args` -/

/-- What the loop does with a text: `args` gets the addresses of its words, as
many as there is room for, and the line keeps what is up to `cp`. -/
def Splits (mem : Mem) (cp ap : ℕ) (t : List Byte) : Prop :=
  ∃ (line' : ℕ → Byte) (ps : List ℕ),
    splitWords mem cp ap = some (⟨line', place mem.args ap (ps.map some)⟩, ap + ps.length) ∧
    (∀ i ≤ cp, line' i = mem.line i) ∧
    List.Forall₂ (Holds line') ps ((words t).take (argsSize - 1 - ap))

variable {mem : Mem}

/-- Where the loop ends at once, there are no more words or no more room. -/
theorem splits_of_stop (h : splitWords mem cp ap = some (mem, ap))
    (ht : (words t).take (argsSize - 1 - ap) = []) : Splits mem cp ap t := by
  refine ⟨mem.line, [], ?_, fun _ _ => rfl, ht ▸ .nil⟩
  rw [h, List.map_nil, place_nil, List.length_nil, Nat.add_zero]

theorem splitWords_full : splitWords mem cp (argsSize - 1) = some (mem, argsSize - 1) := by
  rw [splitWords, if_neg (Nat.lt_irrefl _)]

theorem splitWords_nil (h : Holds mem.line cp []) : splitWords mem cp ap = some (mem, ap) := by
  rw [splitWords]
  split_ifs with hap
  · rw [skipBlanks_nil h]
    simp only [bind, Option.bind_some, h.fetch_nil, if_true]
  · rfl

theorem splitWords_space (h : Holds mem.line cp (ch ' ' :: t)) :
    splitWords mem cp ap = splitWords mem (cp + 1) ap := by
  rw [splitWords, splitWords, skipBlanks_space h]

/-- One word: its address goes to `args`, and the loop goes on behind it. -/
theorem splitWords_word (h : Holds mem.line cp (w ++ t)) (hne : w ≠ []) (hw : ch ' ' ∉ w)
    (ht : ∀ c ∈ t.head?, c = ch ' ') (hap : ap < argsSize - 1) :
    splitWords mem cp ap = (do
      let c ← fetch lineSize mem.line (cp + w.length)
      if c ≠ 0#8 then do
        let line ← store lineSize mem.line (cp + w.length) 0#8
        splitWords ⟨line, Function.update mem.args ap (some cp)⟩ (cp + w.length + 1) (ap + 1)
      else
        splitWords ⟨mem.line, Function.update mem.args ap (some cp)⟩ (cp + w.length)
          (ap + 1)) := by
  obtain ⟨c, v, rfl⟩ := List.exists_cons_of_ne_nil hne
  rw [List.cons_append] at h
  have hc := h.printable c List.mem_cons_self
  have hspace : c ≠ ch ' ' := fun heq => hw (heq ▸ List.mem_cons_self)
  have hskip := skipWord_eq h.tail (fun hmem => hw (List.mem_cons_of_mem _ hmem)) ht
  rw [Nat.add_assoc, Nat.add_comm 1, ← List.length_cons (a := c)] at hskip
  rw [splitWords, if_pos hap, skipBlanks_cons h hspace]
  simp only [bind, Option.bind_some, h.fetch_cons, if_neg hc.ne_nul,
    store_of_lt mem.args (some cp) (show ap < argsSize by omega), hskip]

/-- A word before what the loop does with the rest. -/
theorem Splits.cons {m : Mem} {cp' : ℕ} (hrest : Splits m cp' (ap + 1) t)
    (heq : splitWords mem cp ap = splitWords m cp' (ap + 1))
    (hargs : m.args = Function.update mem.args ap (some cp)) (hw : Holds m.line cp w)
    (hcp' : cp + w.length ≤ cp') (hkeep : ∀ i ≤ cp, m.line i = mem.line i)
    (hap : ap < argsSize - 1) {t' : List Byte} (ht : words t' = w :: words t) :
    Splits mem cp ap t' := by
  obtain ⟨line', ps, hsplit, hline, hps⟩ := hrest
  refine ⟨line', cp :: ps, ?_, fun i hi => ?_, ?_⟩
  · rw [heq, hsplit, hargs, place_update, List.map_cons, List.length_cons, Nat.add_assoc,
      Nat.add_comm 1]
  · rw [hline i (by omega), hkeep i hi]
  · have hroom : argsSize - 1 - ap = argsSize - 1 - (ap + 1) + 1 := by omega
    rw [ht, hroom, List.take_succ_cons]
    exact .cons (hw.congr fun i _ hi => hline i (by omega)) hps

/-- **The words of a line.** Over a text in the line the loop ends with the
addresses of the words in `args`, in order, each word a string of its own. -/
theorem splitWords_spec (h : Holds mem.line cp t) (hap : ap ≤ argsSize - 1) :
    Splits mem cp ap t := by
  induction t using lineInduction generalizing mem cp ap with
  | nil => exact splits_of_stop (splitWords_nil h) (by rw [words_nil, List.take_nil])
  | space t ih =>
    obtain ⟨line', ps, hsplit, hline, hps⟩ := ih h.tail hap
    exact ⟨line', ps, (splitWords_space h).trans hsplit, fun i hi => hline i (by omega),
      by rwa [words_space]⟩
  | last w hne hw =>
    rcases hap.eq_or_lt with rfl | hlt
    · exact splits_of_stop splitWords_full (by rw [Nat.sub_self, List.take_zero])
    have hend : Holds mem.line (cp + w.length) [] :=
      Holds.append (t := []) (by rwa [List.append_nil])
    have hstep := splitWords_word (t := []) (by rwa [List.append_nil]) hne hw (by simp) hlt
    rw [hend.fetch_nil] at hstep
    refine Splits.cons (m := ⟨mem.line, Function.update mem.args ap (some cp)⟩) (t := [])
      (splits_of_stop (splitWords_nil hend) ?_) hstep rfl h le_rfl (fun _ _ => rfl) hlt ?_
    · rw [words_nil, List.take_nil]
    · rw [words_last hne hw, words_nil]
  | word w t hne hw ih =>
    rcases hap.eq_or_lt with rfl | hlt
    · exact splits_of_stop splitWords_full (by rw [Nat.sub_self, List.take_zero])
    have hend := h.append
    have hbehind := hend.fits
    have hstep := splitWords_word h hne hw (by simp) hlt
    rw [hend.fetch_cons] at hstep
    have hnul : ch ' ' ≠ 0#8 := by decide
    simp only [bind, Option.bind_some, if_pos hnul, store_of_lt mem.line 0#8
      (show cp + w.length < lineSize by rw [List.length_cons] at hbehind; omega)] at hstep
    have hrest : Holds (Function.update mem.line (cp + w.length) 0#8) (cp + w.length + 1) t :=
      hend.tail.congr fun i hi _ => Function.update_of_ne (by omega) _ _
    have hpos := List.length_pos_of_ne_nil hne
    exact (ih hrest hlt).cons hstep rfl h.cut (by omega)
      (fun i hi => Function.update_of_ne (by omega) _ _) hlt (words_word hne hw t)

/-! ## What a command finds -/

theorem clearArgs_eq (args : ℕ → Option ℕ) (ap : ℕ) (hap : ap ≤ argsSize) :
    clearArgs args ap = some (place args ap (List.replicate (argsSize - ap) none)) := by
  induction hn : argsSize - ap generalizing args ap with
  | zero =>
    rw [clearArgs, if_neg (by omega), List.replicate_zero, place_nil]
  | succ n ih =>
    have hlt : ap < argsSize := by omega
    rw [clearArgs, if_pos hlt, store_of_lt args none hlt]
    simp only [bind, Option.bind_some]
    rw [ih _ _ (by omega) (by omega), place_update, ← List.replicate_succ]

theorem mapM_argAt {ps : List ℕ} {ws : List (List Byte)} (h : List.Forall₂ (Holds line) ps ws) :
    (ps.map some).mapM (argAt line) = some (ws.map some) := by
  induction h with
  | nil => rfl
  | cons hw _ ih =>
    rw [List.map_cons, List.mapM_cons, ih, argAt, strAt_eq hw]
    rfl

theorem mapM_argAt_replicate (n : ℕ) :
    (List.replicate n none).mapM (argAt line) = some (List.replicate n none) := by
  induction n with
  | zero => rfl
  | succ n ih =>
    rw [List.replicate_succ, List.mapM_cons, ih]
    rfl

/-- The words that fit, and null in the entries behind them. -/
def entries (ws : List (List Byte)) : List (Option (List Byte)) :=
  (ws.take (argsSize - 1)).map some ++
    List.replicate (argsSize - (ws.take (argsSize - 1)).length) none

/-- **The arguments of a command**: all entries of `args` at the call. -/
theorem argv_eq (args : ℕ → Option ℕ) {ps : List ℕ} {ws : List (List Byte)}
    (h : List.Forall₂ (Holds line) ps (ws.take (argsSize - 1))) :
    argv ⟨line, place (place args 0 (ps.map some)) ps.length
      (List.replicate (argsSize - ps.length) none)⟩ = some (entries ws) := by
  have hlen := h.length_eq
  have hle : ps.length ≤ argsSize := by
    rw [hlen]
    exact (List.length_take_le ..).trans (by decide)
  have hall := place_append args 0 (ps.map some) (List.replicate (argsSize - ps.length) none)
  rw [List.length_map, Nat.zero_add] at hall
  have hsize : (ps.map some ++ List.replicate (argsSize - ps.length) none).length = argsSize := by
    rw [List.length_append, List.length_map, List.length_replicate]
    omega
  have hblock := block_place (m := args) (a := 0) (k := 0) (n := argsSize)
    (l := ps.map some ++ List.replicate (argsSize - ps.length) none) (by omega)
  rw [Nat.zero_add, List.drop_zero, List.take_of_length_le hsize.le] at hblock
  rw [argv, hall, hblock, List.mapM_append, mapM_argAt h, mapM_argAt_replicate, entries, hlen]
  rfl

end Command

end AntTracer
