import AntTracer.Debug.Number

/-!
# The bound of `snprintf`

For every format and arguments that fit it, `xprintf` ends, and what it puts
out does not depend on where it goes: `xprintfFrom_puts` gives the characters.
`xputc` stores the first of them, as many as there is room for, and `snprintf`
a NUL behind them. The room is an `int`, so that of a size above `2 ^ 31` is
negative, and only the NUL is stored.
-/

namespace AntTracer

namespace Debug

open Stores

/-! ## The source -/

/-- `pr_t.str`: `DEBUGOUT`, `DEBUGBLOCKEDOUT`, or a place in the caller's
buffer. -/
inductive Dest where
  | debugOut
  | debugBlockedOut
  | buffer (i : ℕ)

/-- `pr_t`, with the state of `printf.c` that `xputc` uses and what it did:
the characters shown, and the stores in the caller's buffer. -/
structure Pr where
  str : Dest
  sz : ℤ
  printMask : Word := 0#32
  currentLevel : Word := 0#32
  shown : List Word := []
  stored : List (ℕ × Byte) := []

/-- The branch of `xputc` for the debug port, `DebugPutChar` or
`DebugPutCharBlocked`. -/
def Pr.show (pr : Pr) (c : Word) : Pr :=
  let pr := if pr.currentLevel = 0#32 ∨ pr.currentLevel &&& pr.printMask ≠ 0#32 then
    { pr with shown := pr.shown ++ [c] } else pr
  if c = 0x0a#32 then { pr with currentLevel := 0#32 } else pr

/-- `xputc`. -/
def xputc (pr : Pr) (c : Word) : Pr :=
  match pr.str with
  | .debugOut => pr.show c
  | .debugBlockedOut => pr.show c
  | .buffer out =>
    if pr.sz > 0 then
      { pr with stored := pr.stored ++ [(out, c.setWidth 8)], str := .buffer (out + 1),
                sz := pr.sz - 1 }
    else pr

/-- `snprintf`: the stores in `out`. -/
def snprintf (sz : Word) (fmt : CString) (ap : List Arg) : Option (List (ℕ × Byte)) := do
  let pr ← xprintf xputc fmt ap { str := .buffer 0, sz := (sz - 1#32).toInt }
  match pr.str with
  | .buffer i => some (pr.stored ++ [(i, 0#8)])
  | _ => none

/-! ## The arguments of a format -/

/-- The types of arguments. -/
inductive ArgType where
  | int
  | str
  deriving DecidableEq

/-- The type of an argument. -/
def Arg.type : Arg → ArgType
  | .int _ => .int
  | .str _ => .str

/-- What a conversion letter takes. -/
def takes (c : Byte) : Option ArgType :=
  if IsNumber c ∨ c = ch 'c' ∨ c = ch 'C' then some .int
  else if c = ch 's' then some .str
  else none

/-- Where in a format a character stands: in plain text, behind a `%`, or
behind a flag or a digit of a width. -/
inductive Place where
  | plain
  | percent
  | width

/-- The conversion letters of a format. -/
def letters : Place → List Byte → List Byte
  | _, [] => []
  | .plain, c :: l => letters (if c = ch '%' then .percent else .plain) l
  | .percent, c :: l =>
    if c = ch '-' ∨ IsDigit c then letters .width l else c :: letters .plain l
  | .width, c :: l => if IsDigit c then letters .width l else c :: letters .plain l

/-- The arguments begin with what the letters take. -/
def Fits (ls : List Byte) (ap : List Arg) : Prop := ls.filterMap takes <+: ap.map Arg.type

instance (ls : List Byte) (ap : List Arg) : Decidable (Fits ls ap) :=
  inferInstanceAs (Decidable (_ <+: _))

theorem letters_width (l : List Byte) :
    letters .width l = match l.dropWhile (IsDigit ·) with
      | [] => []
      | c :: rest => c :: letters .plain rest := by
  induction l with
  | nil => rfl
  | cons c l ih =>
    by_cases hc : IsDigit c
    · rw [letters, if_pos hc, ih, List.dropWhile_cons_of_pos (by simpa using hc)]
    · rw [letters, if_neg hc, List.dropWhile_cons_of_neg (by simpa using hc)]

/-- **The letter of a conversion** is the one behind its flags and width. -/
theorem letters_percent (l : List Byte) :
    letters .percent l = match afterWidth l with
      | [] => []
      | c :: rest => c :: letters .plain rest := by
  have hzero : ∀ l : List Byte, (afterZero l).dropWhile (IsDigit ·) = l.dropWhile (IsDigit ·) := by
    intro l
    cases l with
    | nil => rfl
    | cons c l =>
      by_cases hc : c = ch '0'
      · rw [afterZero, List.headD_cons, if_pos hc, List.tail_cons,
          List.dropWhile_cons_of_pos (by rw [hc]; decide)]
      · rw [afterZero, List.headD_cons, if_neg hc]
  rw [afterWidth, hzero, ← letters_width]
  cases l with
  | nil => rfl
  | cons c l =>
    by_cases hc : c = ch '-'
    · rw [letters, if_pos (.inl hc), afterMinus, List.headD_cons, if_pos hc, List.tail_cons]
    · rw [afterMinus, List.headD_cons, if_neg hc]
      simp only [letters, hc, false_or]

/-! ## What is put out -/

variable {σ : Type} {put : σ → Word → σ}

/-- The padding before a string fills it up to the width. -/
theorem padBefore_eq (l : Word) (k : ℕ) : ∀ (prec : Word) (out : σ),
    (prec.toInt - l.toInt).toNat = k → padBefore put l prec out =
      some (prec - BitVec.ofNat 32 k, (List.replicate k (int (ch ' '))).foldl put out) := by
  induction k with
  | zero =>
    intro prec out hk
    have hslt : ¬ l.slt prec = true := by
      rw [BitVec.slt_iff_toInt_lt]
      omega
    rw [padBefore, if_neg hslt]
    simp
  | succ k ih =>
    intro prec out hk
    have hslt : l.slt prec = true := by
      rw [BitVec.slt_iff_toInt_lt]
      omega
    rw [padBefore, if_pos hslt, ih _ _ (by rw [toInt_sub_one hslt]; omega), BitVec.sub_sub,
      ← BitVec.ofNat_add, Nat.add_comm 1 k]
    rfl

theorem padAfter_eq (k : ℕ) : ∀ (prec : Word) (out : σ), prec.toInt.toNat = k →
    padAfter put prec out = some ((List.replicate k (int (ch ' '))).foldl put out) := by
  have hzero : (0#32).toInt = 0 := rfl
  induction k with
  | zero =>
    intro prec out hk
    have hslt : ¬ (0#32).slt prec = true := by
      rw [BitVec.slt_iff_toInt_lt]
      omega
    rw [padAfter, if_neg hslt]
    rfl
  | succ k ih =>
    intro prec out hk
    have hslt : (0#32).slt prec = true := by
      rw [BitVec.slt_iff_toInt_lt]
      omega
    rw [padAfter, if_pos hslt, ih _ _ (by rw [toInt_sub_one hslt]; omega)]
    rfl

/-- **A string is put out** with its padding. -/
theorem putString_puts (prec : Word) (neg : Bool) (s : CString) : ∃ cs : List Word,
    ∀ (σ : Type) (put : σ → Word → σ) (out : σ),
      putString put prec neg s out = some (cs.foldl put out) := by
  set l := BitVec.ofNat 32 s.chars.length with hl
  cases neg with
  | true =>
    refine ⟨s.chars.map int ++ List.replicate (prec - l).toInt.toNat (int (ch ' ')),
      fun σ put out => ?_⟩
    rw [putString]
    simp only [if_true, Option.bind_eq_bind, Option.bind_some, ← hl, padAfter_eq _ _ _ rfl,
      List.foldl_append, List.foldl_map]
  | false =>
    refine ⟨List.replicate (prec.toInt - l.toInt).toNat (int (ch ' ')) ++ s.chars.map int,
      fun σ put out => ?_⟩
    rw [putString]
    simp only [Bool.false_eq_true, if_false, Option.bind_eq_bind, Option.bind_some, ← hl,
      padBefore_eq _ _ _ _ rfl, List.foldl_append, List.foldl_map]

/-- **A character is put out** with its escape. -/
theorem putEscaped_puts (c : Word) : ∃ cs : List Word,
    ∀ (σ : Type) (put : σ → Word → σ) (out : σ),
      putEscaped put c out = some (cs.foldl put out) := by
  have hhex : baseOf (ch 'x') = 16 := by decide
  by_cases hplain : 0x20 ≤ c.toInt ∧ c.toInt ≤ 0x7e ∧ c ≠ 0x5c#32
  · exact ⟨[c], fun σ put out => if_pos hplain⟩
  by_cases hshort :
      c ∈ [0x5c#32, 0x09#32, 0x0b#32, 0x0c#32, 0x0d#32, 0x0a#32, 0x07#32, 0x1b#32, 0#32]
  · simp only [List.mem_cons, List.not_mem_nil, or_false] at hshort
    rcases hshort with rfl | rfl | rfl | rfl | rfl | rfl | rfl | rfl | rfl <;>
      exact ⟨[_, _], fun σ put out => rfl⟩
  · -- any other character is written in hexadecimal
    refine ⟨0x5c#32 :: int (ch 'x') :: (numberText c.toNat (clip 2#32) true false 16).map int,
      fun σ put out => ?_⟩
    have hnumber : ∀ out, number put c 2#32 true false 16 out =
        some (((numberText c.toNat (clip 2#32) true false 16).map int).foldl put out) := by
      intro out
      rw [← hhex]
      exact number_eq (by decide) c 2#32 true false (fun h => by cases h) out
    simp only [List.mem_cons, List.not_mem_nil, or_false, not_or] at hshort
    rw [putEscaped, if_neg hplain]
    simp only [hshort, if_false, hnumber]
    rfl

/-! ## The whole format -/

/-- The arguments left after a conversion. -/
def argsAfter (c : Byte) (ap : List Arg) : List Arg := if (takes c).isSome then ap.tail else ap

/-- The arguments of a format are those of its first letter and of the rest. -/
theorem fits_cons {c : Byte} {ls : List Byte} {ap : List Arg} :
    Fits (c :: ls) ap ↔ Fits [c] ap ∧ Fits ls (argsAfter c ap) := by
  unfold Fits argsAfter
  cases htakes : takes c with
  | none => simp [htakes]
  | some t =>
    cases ap with
    | nil => simp [htakes]
    | cons a ap => simp [htakes, List.cons_prefix_cons]

theorem int_of_fits {c : Byte} {ap : List Arg} (htakes : takes c = some .int)
    (h : Fits [c] ap) : ∃ v ap', ap = .int v :: ap' ∧ argsAfter c ap = ap' := by
  unfold Fits at h
  cases ap with
  | nil => simp [htakes] at h
  | cons a ap =>
    cases a with
    | int v => exact ⟨v, ap, rfl, by simp [argsAfter, htakes]⟩
    | str s => simp [htakes, List.cons_prefix_cons, Arg.type] at h

theorem str_of_fits {c : Byte} {ap : List Arg} (htakes : takes c = some .str)
    (h : Fits [c] ap) : ∃ s ap', ap = .str s :: ap' ∧ argsAfter c ap = ap' := by
  unfold Fits at h
  cases ap with
  | nil => simp [htakes] at h
  | cons a ap =>
    cases a with
    | int v => simp [htakes, List.cons_prefix_cons, Arg.type] at h
    | str s => exact ⟨s, ap, rfl, by simp [argsAfter, htakes]⟩

/-- **Every conversion but `%b` is put out**, if its argument is there. -/
theorem convert_puts {c : Byte} (hb : c ≠ ch 'b') (prec : Word) (zero neg : Bool) {ap : List Arg}
    (h : Fits [c] ap) : ∃ cs : List Word, ∀ (σ : Type) (put : σ → Word → σ) (out : σ),
      convert put c prec zero neg ap out = some (argsAfter c ap, cs.foldl put out) := by
  by_cases hpercent : c = 0#8 ∨ c = ch '%'
  · have hnone : argsAfter c ap = ap := by
      rcases hpercent with rfl | rfl <;> rfl
    exact ⟨[int (ch '%')], fun σ put out => by rw [convert, if_pos hpercent, hnone]; rfl⟩
  by_cases hnumber : IsNumber c
  · obtain ⟨v, ap, rfl, hafter⟩ := int_of_fits (if_pos (.inl hnumber)) h
    refine ⟨(numberText (numberArgs c v).1.toNat (clip prec) zero (numberArgs c v).2.1
      (baseOf c)).map int, fun σ put out => ?_⟩
    rw [convert_number hnumber hb, hafter]
  by_cases hs : c = ch 's'
  · obtain ⟨s, ap, rfl, hafter⟩ := str_of_fits (by rw [hs]; decide) h
    obtain ⟨cs, hcs⟩ := putString_puts prec neg s
    refine ⟨cs, fun σ put out => ?_⟩
    rw [convert, if_neg hpercent, if_neg hnumber, if_pos hs, hafter]
    simp only [argStr, Option.bind_eq_bind, Option.bind_some, hcs]
  by_cases hc : c = ch 'c'
  · obtain ⟨v, ap, rfl, hafter⟩ := int_of_fits (by rw [hc]; decide) h
    refine ⟨[v], fun σ put out => ?_⟩
    rw [convert, if_neg hpercent, if_neg hnumber, if_neg hs, if_pos hc, hafter]
    rfl
  by_cases hC : c = ch 'C'
  · obtain ⟨v, ap, rfl, hafter⟩ := int_of_fits (by rw [hC]; decide) h
    obtain ⟨cs, hcs⟩ := putEscaped_puts v
    refine ⟨cs, fun σ put out => ?_⟩
    rw [convert, if_neg hpercent, if_neg hnumber, if_neg hs, if_neg hc, if_pos hC, hafter]
    simp only [argInt, Option.bind_eq_bind, Option.bind_some, hcs]
  · -- an unknown letter is skipped
    have htakes : takes c = none := by
      rw [takes, if_neg (by tauto), if_neg hs]
    refine ⟨[], fun σ put out => ?_⟩
    rw [convert, if_neg hpercent, if_neg hnumber, if_neg hs, if_neg hc, if_neg hC, argsAfter,
      htakes]
    rfl

/-- **The walk ends**, from any index of a format on, and puts out the same
characters wherever they go. -/
theorem xprintfFrom_puts {fmt : CString} (n : ℕ) : ∀ (i : ℕ) (ap : List Arg),
    fmt.chars.length - i ≤ n → i ≤ fmt.chars.length →
    ch 'b' ∉ letters .plain (fmt.chars.drop i) → Fits (letters .plain (fmt.chars.drop i)) ap →
    ∃ cs : List Word, ∀ (σ : Type) (put : σ → Word → σ) (out : σ),
      fmt.xprintfFrom put i ap out = some (cs.foldl put out) := by
  induction n with
  | zero =>
    intro i ap hn hi _ _
    exact ⟨[], fun σ put out => xprintfFrom_end (List.drop_eq_nil_of_le (by omega)) hi ap out⟩
  | succ n ih =>
    intro i ap hn hi hb hfits
    cases hdrop : fmt.chars.drop i with
    | nil => exact ⟨[], fun σ put out => xprintfFrom_end hdrop hi ap out⟩
    | cons c l =>
      obtain ⟨hdrop₁, hle₁⟩ := drop_succ hdrop
      rw [hdrop, letters] at hb hfits
      by_cases hc : c = ch '%'
      · subst hc
        rw [if_pos rfl, letters_percent] at hb hfits
        obtain ⟨j, hstep, hj, hij, hjl⟩ := xprintfFrom_percent hdrop
        have hsplit : ch 'b' ≠ (afterWidth l).headD 0#8 ∧
            ch 'b' ∉ letters .plain (afterWidth l).tail ∧
            Fits [(afterWidth l).headD 0#8] ap ∧
            Fits (letters .plain (afterWidth l).tail)
              (argsAfter ((afterWidth l).headD 0#8) ap) := by
          cases hafter : afterWidth l with
          | nil => exact ⟨by decide, by simp [letters], List.nil_prefix, List.nil_prefix⟩
          | cons c rest =>
            rw [hafter] at hb hfits
            simp only [List.mem_cons, not_or] at hb
            obtain ⟨hone, hrest⟩ := fits_cons.1 hfits
            exact ⟨hb.1, hb.2, hone, hrest⟩
        obtain ⟨hb', hbrest, hone, hrest⟩ := hsplit
        obtain ⟨cs, hcs⟩ := convert_puts hb'.symm
          (widthOf 0#32 ((afterZero (afterMinus l)).takeWhile (IsDigit ·)))
          (decide ((afterMinus l).headD 0#8 = ch '0')) (decide (l.headD 0#8 = ch '-')) hone
        obtain ⟨cs', hcs'⟩ := ih j _ (by omega) hjl (by rwa [hj]) (by rwa [hj])
        refine ⟨cs ++ cs', fun σ put out => ?_⟩
        rw [hstep, hcs, Option.bind_some, hcs', List.foldl_append]
      · rw [if_neg hc] at hb hfits
        obtain ⟨cs, hcs⟩ := ih (i + 1) ap (by omega) hle₁ (by rwa [hdrop₁]) (by rwa [hdrop₁])
        refine ⟨int c :: cs, fun σ put out => ?_⟩
        rw [xprintfFrom_plain hdrop hc, hcs]
        rfl

/-! ## What is stored -/

/-- **`xputc` stores the first characters**, as many as there is room for, and
leaves the rest out. -/
theorem foldl_xputc (cs : List Word) : ∀ {pr : Pr} {i : ℕ}, pr.str = .buffer i →
    (cs.foldl xputc pr).str = .buffer (i + min pr.sz.toNat cs.length) ∧
      (cs.foldl xputc pr).stored =
        pr.stored ++ stretch i ((cs.take pr.sz.toNat).map (BitVec.setWidth 8)) := by
  induction cs with
  | nil =>
    intro pr i hstr
    simp [hstr, stretch]
  | cons c cs ih =>
    intro pr i hstr
    by_cases hroom : pr.sz > 0
    · obtain ⟨z, hz⟩ : ∃ z, pr.sz.toNat = z + 1 := ⟨pr.sz.toNat - 1, by omega⟩
      obtain ⟨hstr', hsz', hstored'⟩ : (xputc pr c).str = .buffer (i + 1) ∧
          (xputc pr c).sz = pr.sz - 1 ∧
          (xputc pr c).stored = pr.stored ++ [(i, c.setWidth 8)] := by
        rw [xputc, hstr]
        simp only [hroom, if_true, and_self]
      have hsz : (pr.sz - 1).toNat = z := by omega
      obtain ⟨hplace, hstored⟩ := ih hstr'
      rw [List.foldl_cons, hplace, hstored, hstored', hsz', hsz, hz]
      simp only [List.length_cons, List.take_succ_cons, List.map_cons, stretch,
        List.append_assoc, List.singleton_append, and_true]
      congr 1
      omega
    · have hput : xputc pr c = pr := by
        rw [xputc, hstr]
        exact if_neg hroom
      obtain ⟨hplace, hstored⟩ := ih hstr
      have hz : pr.sz.toNat = 0 := by omega
      rw [List.foldl_cons, hput, hplace, hstored, hz]
      simp

/-- The room for characters that `snprintf` gives `xputc`. -/
def room (sz : Word) : ℕ := if sz.toNat ≤ 2 ^ 31 then sz.toNat - 1 else 0

theorem toNat_room {sz : Word} (h : 1 ≤ sz.toNat) : (sz - 1#32).toInt.toNat = room sz := by
  have hlt := sz.isLt
  have hsub : (sz - 1#32).toNat = sz.toNat - 1 := by
    rw [BitVec.toNat_sub, show (1#32).toNat = 1 from rfl]
    omega
  rw [BitVec.toInt_eq_toNat_cond, hsub, room]
  split <;> split <;> omega

theorem snprintf_eq {fmt : CString} {ap : List Arg} {cs : List Word} {sz : Word}
    (hcs : ∀ out : Pr, xprintf xputc fmt ap out = some (cs.foldl xputc out)) (hsz : 1 ≤ sz.toNat) :
    snprintf sz fmt ap =
      some (stretch 0 ((cs.take (room sz)).map (BitVec.setWidth 8) ++ [0#8])) := by
  let pr : Pr := { str := .buffer 0, sz := (sz - 1#32).toInt }
  have hpr : pr.str = .buffer 0 := rfl
  obtain ⟨hplace, hstored⟩ := foldl_xputc cs hpr
  rw [snprintf, hcs, Option.bind_eq_bind, Option.bind_some, hplace, hstored, toNat_room hsz,
    stretch_append, List.length_map, List.length_take]
  rfl

/-- **`snprintf` is bounded.** For every format and arguments that fit it the
walk ends and stays inside the format; what it puts out is stored up to the
room there is, with a NUL behind it. -/
theorem snprintf_bounded (fmt : CString) (ap : List Arg) (sz : Word)
    (hb : ch 'b' ∉ letters .plain fmt.chars) (hfits : Fits (letters .plain fmt.chars) ap)
    (hsz : 1 ≤ sz.toNat) :
    ∃ cs, expand fmt ap = some cs ∧
      (∀ (σ : Type) (put : σ → Word → σ) (out : σ),
        xprintf put fmt ap out = some (cs.foldl put out)) ∧
      snprintf sz fmt ap =
        some (stretch 0 ((cs.take (room sz)).map (BitVec.setWidth 8) ++ [0#8])) ∧
      min (room sz) cs.length + 1 ≤ sz.toNat := by
  obtain ⟨cs, hcs⟩ := xprintfFrom_puts fmt.chars.length 0 ap (by omega) (Nat.zero_le _) hb hfits
  refine ⟨cs, (hcs _ _ _).trans (congrArg some (foldl_collect cs)), hcs,
    snprintf_eq (hcs Pr xputc) hsz, ?_⟩
  rw [room]
  split <;> omega

/-- A size whose room is negative as an `int`: the one character of the format
is left out. -/
theorem snprintf_negative_room : let fmt : CString := ⟨[ch 'a'], by decide⟩
    expand fmt [] = some [int (ch 'a')] ∧ snprintf 0x80000001#32 fmt [] = some [(0, 0#8)] ∧
      snprintf 0x80000001#32 fmt [] ≠ some (stretch 0
        (([int (ch 'a')].take (0x80000001 - 1)).map (BitVec.setWidth 8) ++ [0#8])) := by
  intro fmt
  have hdrop : fmt.chars.drop 0 = [ch 'a'] := rfl
  have hcs : ∀ (σ : Type) (put : σ → Word → σ) (out : σ),
      xprintf put fmt [] out = some ([int (ch 'a')].foldl put out) := by
    intro σ put out
    rw [xprintf, xprintfFrom_plain hdrop (by decide), xprintfFrom_end (by rfl) (by decide)]
    rfl
  have hstored : snprintf 0x80000001#32 fmt [] = some [(0, 0#8)] := by
    rw [snprintf_eq (hcs Pr xputc) (by decide)]
    rfl
  refine ⟨hcs _ _ _, hstored, ?_⟩
  rw [hstored]
  decide

/-- A number and a text, cut off. -/
theorem snprintf_four : let fmt : CString := ⟨[ch 'n', ch '=', ch '%', ch 'u', ch '%', ch 's'],
      by decide⟩
    let ap : List Arg := [.int 7#32, .str ⟨[ch 'm', ch 's'], by decide⟩]
    ∃ cs, expand fmt ap = some cs ∧ snprintf 4#32 fmt ap =
      some (stretch 0 ((cs.take 3).map (BitVec.setWidth 8) ++ [0#8])) := by
  intro fmt ap
  obtain ⟨cs, hexpand, -, hstored, -⟩ := snprintf_bounded fmt ap 4#32 (by decide) (by decide)
    (by decide)
  exact ⟨cs, hexpand, hstored⟩

end Debug

end AntTracer
