import AntTracer.Command.Words

/-!
# The lines that are typed

What a stream of characters is as lines, apart from any reader. A CR, an LF
and a CR LF are one line end each (`lineEnds`); within a line a backspace
deletes the last character kept, and a printable one is kept while there is
room for it (`edit`). The lemmas say what one more character makes of the
complete lines (`texts`) and of the one that is being typed (`current`).
-/

namespace AntTracer

namespace Command

open Debug

/-- The characters with each CR, LF and CR LF as one LF. -/
def lineEnds : List Byte → List Byte
  | [] => []
  | [c] => [if c = ch '\r' then ch '\n' else c]
  | c :: d :: cs =>
    if c = ch '\r' ∧ d = ch '\n' then ch '\n' :: lineEnds cs
    else (if c = ch '\r' then ch '\n' else c) :: lineEnds (d :: cs)

/-- One more character of a line. -/
def editChar (t : List Byte) (c : Byte) : List Byte :=
  if c = 0x08#8 then t.dropLast
  else if IsPrintable c ∧ t.length < lineSize - 1 then t ++ [c]
  else t

/-- The text that the characters of a line give. -/
def edit (cs : List Byte) : List Byte := cs.foldl editChar []

/-- The characters of each line, those since the last line end in the last
place. -/
def pieces (cs : List Byte) : List (List Byte) := (lineEnds cs).splitOn (ch '\n')

/-- The texts of the complete lines. -/
def texts (cs : List Byte) : List (List Byte) := (pieces cs).dropLast.map edit

/-- The text since the last line end. -/
def current (cs : List Byte) : List Byte := edit ((pieces cs).getLastD [])

/-! ## The lines of the characters -/

variable {cs : List Byte} {c : Byte}

/-- A character behind others is a line end, is the LF of a CR LF, or
belongs to the line. -/
theorem lineEnds_append (cs : List Byte) (c : Byte) :
    lineEnds (cs ++ [c]) = if cs.getLast? = some (ch '\r') ∧ c = ch '\n' then lineEnds cs
      else lineEnds cs ++ [if c = ch '\r' then ch '\n' else c] := by
  induction cs using lineEnds.induct with
  | case1 => rfl
  | case2 d =>
    rw [List.singleton_append, List.getLast?_singleton, lineEnds, lineEnds]
    by_cases h : d = ch '\r' ∧ c = ch '\n'
    · rw [if_pos h, if_pos ⟨congrArg some h.1, h.2⟩, if_pos h.1, lineEnds]
    · have hlast : ¬ (some d = some (ch '\r') ∧ c = ch '\n') :=
        fun h' => h ⟨Option.some.inj h'.1, h'.2⟩
      rw [if_neg h, if_neg hlast]
      rfl
  | case3 d e cs h ih =>
    have hlast : (d :: e :: cs).getLast? = some (ch '\r') ↔ cs.getLast? = some (ch '\r') := by
      cases cs with
      | nil => exact iff_of_false (by rw [h.1, h.2]; decide) (by decide)
      | cons f cs => rw [List.getLast?_cons_cons, List.getLast?_cons_cons]
    rw [List.cons_append, List.cons_append, lineEnds, if_pos h, ih, lineEnds, if_pos h]
    simp only [hlast]
    split_ifs <;> rfl
  | case4 d e cs h ih =>
    rw [List.cons_append] at ih
    rw [List.cons_append, List.cons_append, lineEnds, if_neg h, ih, lineEnds, if_neg h,
      List.getLast?_cons_cons]
    split_ifs <;> rfl

/-- A piece grows at its end. -/
theorem splitOn_append_singleton {α : Type*} [BEq α] [LawfulBEq α] {a b : α} (h : b ≠ a)
    (l : List α) :
    ∃ ps p, l.splitOn a = ps ++ [p] ∧ (l ++ [b]).splitOn a = ps ++ [p ++ [b]] := by
  induction l with
  | nil => exact ⟨[], [], rfl, List.splitOn_eq_singleton (by simpa using h.symm)⟩
  | cons d l ih =>
    obtain ⟨ps, p, hl, hlb⟩ := ih
    rw [List.cons_append, List.splitOn_cons_eq_if_modifyHead, List.splitOn_cons_eq_if_modifyHead,
      hl, hlb]
    split_ifs
    · exact ⟨[] :: ps, p, rfl, rfl⟩
    · cases ps with
      | nil => exact ⟨[], d :: p, rfl, rfl⟩
      | cons q ps => exact ⟨(d :: q) :: ps, p, rfl, rfl⟩

/-- **A line end** completes the line. -/
theorem lines_end (h : ¬ (cs.getLast? = some (ch '\r') ∧ c = ch '\n'))
    (hc : c = ch '\r' ∨ c = ch '\n') :
    texts (cs ++ [c]) = texts cs ++ [current cs] ∧ current (cs ++ [c]) = [] := by
  have hlf : (if c = ch '\r' then ch '\n' else c) = ch '\n' := by
    split_ifs with hcr
    · rfl
    · exact hc.resolve_left hcr
  have hpieces : pieces (cs ++ [c]) = pieces cs ++ [[]] := by
    rw [pieces, lineEnds_append, if_neg h, hlf, List.splitOn_append_cons_self, List.splitOn_nil,
      pieces]
  have hne : pieces cs ≠ [] := List.splitOn_ne_nil _ _
  constructor
  · rw [texts, hpieces, List.dropLast_concat, texts, current, ← List.map_singleton,
      ← List.map_append, List.getLastD_eq_getLast?, List.getLast?_eq_some_getLast hne,
      Option.getD_some, List.dropLast_append_getLast hne]
  · rw [current, hpieces, List.getLastD_concat]
    rfl

/-- The LF of a CR LF is no line end of its own. -/
theorem lines_fold (h : cs.getLast? = some (ch '\r') ∧ c = ch '\n') :
    texts (cs ++ [c]) = texts cs ∧ current (cs ++ [c]) = current cs := by
  have hpieces : pieces (cs ++ [c]) = pieces cs := by
    rw [pieces, lineEnds_append, if_pos h, pieces]
  rw [texts, current, hpieces]
  exact ⟨rfl, rfl⟩

/-- Any other character belongs to the line. -/
theorem lines_char (cs : List Byte) (hcr : c ≠ ch '\r') (hlf : c ≠ ch '\n') :
    texts (cs ++ [c]) = texts cs ∧ current (cs ++ [c]) = editChar (current cs) c := by
  obtain ⟨ps, p, hcs, hcsc⟩ := splitOn_append_singleton hlf (lineEnds cs)
  have hpieces : pieces (cs ++ [c]) = ps ++ [p ++ [c]] := by
    rw [pieces, lineEnds_append, if_neg fun h => hlf h.2, if_neg hcr, hcsc]
  rw [texts, texts, current, current, hpieces, pieces, hcs, List.dropLast_concat,
    List.dropLast_concat, List.getLastD_concat, List.getLastD_concat]
  exact ⟨rfl, List.foldl_append⟩

/-- **What a line holds.** Its characters are printable and there is room for
the NUL. -/
theorem edit_spec (cs : List Byte) :
    (edit cs).length < lineSize ∧ ∀ c ∈ edit cs, IsPrintable c := by
  induction cs using List.reverseRecOn with
  | nil => exact ⟨by decide, fun c hc => absurd hc List.not_mem_nil⟩
  | append_singleton cs c ih =>
    obtain ⟨hlen, hprint⟩ := ih
    have hedit : edit (cs ++ [c]) = editChar (edit cs) c := List.foldl_append
    rw [hedit, editChar]
    split_ifs with hb hc
    · exact ⟨by rw [List.length_dropLast]; omega,
        fun d hd => hprint d (List.mem_of_mem_dropLast hd)⟩
    · refine ⟨by rw [List.length_append, List.length_singleton]; omega, fun d hd => ?_⟩
      rcases List.mem_append.1 hd with hd | hd
      · exact hprint d hd
      · exact List.mem_singleton.1 hd ▸ hc.1
    · exact ⟨hlen, hprint⟩

theorem current_length_lt (cs : List Byte) : (current cs).length < lineSize := (edit_spec _).1

end Command

end AntTracer
