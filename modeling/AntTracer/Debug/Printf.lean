import AntTracer.Library.Stores
import AntTracer.Record.Word

/-!
# The formatter of `printf.c`

`xprintf` walks a format with a cursor and sends characters to `xputc`, which
puts them on the debug port or, for `snprintf`, in a buffer. The walk is
written over any way to put a character, and every read of the format and
every store in the buffer of `number` is checked: there is no result when the
cursor goes past the terminating NUL, when an argument is missing or of the
wrong type, when a store is outside `buf`, or when a loop does not end.

Characters are passed on as `int`, as `xputc` takes them. The width of a
conversion is an `int` as well, and wraps.
-/

namespace AntTracer

namespace Debug

/-! ## Characters and arguments -/

/-- A character constant. -/
def ch (c : Char) : Byte := BitVec.ofNat 8 c.toNat

/-- A character as `xputc` takes it. -/
def int (c : Byte) : Word := c.setWidth 32

/-- The test `*fmt >= '0' && *fmt <= '9'`. -/
def IsDigit (c : Byte) : Prop := ch '0' ≤ c ∧ c ≤ ch '9'

instance : DecidablePred IsDigit := fun _ => inferInstanceAs (Decidable (_ ∧ _))

/-- A string in memory: the characters before its NUL. -/
structure CString where
  chars : List Byte
  noNul : 0#8 ∉ chars

/-- The character at an index of a string, up to its NUL. -/
def CString.charAt (s : CString) (i : ℕ) : Option Byte :=
  if i < s.chars.length then s.chars[i]? else if i = s.chars.length then some 0#8 else none

/-- What `va_arg` finds: an `int` or `unsigned`, or a string. -/
inductive Arg where
  | int (v : Word)
  | str (s : CString)

/-- `va_arg(ap, int)` and `va_arg(ap, unsigned)`. -/
def argInt : List Arg → Option (Word × List Arg)
  | .int v :: ap => some (v, ap)
  | _ => none

/-- `va_arg(ap, char *)`. -/
def argStr : List Arg → Option (CString × List Arg)
  | .str s :: ap => some (s, ap)
  | _ => none

/-! ## `number` -/

/-- `sizeof buf`. -/
abbrev bufSize : ℕ := 16

/-- `HexString`. -/
def hexString : List Byte :=
  [ch '0', ch '1', ch '2', ch '3', ch '4', ch '5', ch '6', ch '7', ch '8', ch '9', ch 'a', ch 'b',
    ch 'c', ch 'd', ch 'e', ch 'f']

/-- `*--cp = c`, with `buf` given from `cp` on. -/
def push (c : Byte) (cp : List Byte) : Option (List Byte) :=
  if cp.length < bufSize then some (c :: cp) else none

/-- The loop over the digits, each of them stored as by `push`. -/
def digitsFrom (base n : ℕ) (prec : ℤ) (cp : List Byte) : Option (ℤ × List Byte) :=
  if n = 0 then some (prec, cp)
  else if cp.length < bufSize then
    digitsFrom base (n / base) (prec - 1) (hexString.getD (n % base) 0#8 :: cp)
  else none
termination_by bufSize - cp.length

/-- The loop over the padding. -/
def padFrom (c : Byte) (prec : ℤ) (cp : List Byte) : Option (List Byte) :=
  if prec > 0 then do
    let cp ← push c cp
    padFrom c (prec - 1) cp
  else some cp
termination_by prec.toNat

/-- What `number` leaves in `buf`, from `cp` on. -/
def numberBuf (n prec : Word) (zero sign : Bool) (base : ℕ) : Option (List Byte) := do
  -- the comparison with `sizeof` is unsigned
  let prec : ℤ := if prec.toNat > bufSize - 2 then bufSize - 2 else prec.toNat
  let cp ← push 0#8 []
  let digits ← (if n = 0#32 then do
      let cp ← push (ch '0') cp
      some (prec - 1, cp)
    else digitsFrom base n.toNat prec cp)
  let signed ← (if sign then
      if zero then some (digits.1 - 1, digits.2)
      else do
        let cp ← push (ch '-') digits.2
        some (digits.1, cp)
    else some digits)
  let cp ← padFrom (if zero then ch '0' else ch ' ') signed.1 signed.2
  if sign ∧ zero then push (ch '-') cp else some cp

section Walk

variable {σ : Type} (put : σ → Word → σ)

/-- The characters of `buf` from `cp` on, up to the NUL. -/
def emit : List Byte → σ → Option σ
  | [], _ => none
  | c :: cp, out => if c = 0#8 then some out else emit cp (put out (int c))

/-- `number`. -/
def number (n prec : Word) (zero sign : Bool) (base : ℕ) (out : σ) : Option σ := do
  let cp ← numberBuf n prec zero sign base
  emit put cp out

/-! ## `xprintf` -/

/-- The width of a conversion, and the index after it. -/
def CString.widthFrom (fmt : CString) (i : ℕ) (prec : Word) : Option (Word × ℕ) := do
  let c ← fmt.charAt i
  if IsDigit c then
    fmt |>.widthFrom (i + 1) (prec * 10#32 + (int c - int (ch '0')))
  else some (prec, i)
partial_fixpoint

theorem toInt_sub_one {x y : Word} (h : y.slt x) : (x - 1#32).toInt = x.toInt - 1 := by
  have hlt := BitVec.slt_iff_toInt_lt.1 h
  have hy := BitVec.le_toInt y
  have hx := BitVec.toInt_lt (x := x)
  rw [BitVec.toInt_sub, show (1#32).toInt = 1 from rfl]
  exact Int.bmod_eq_of_le (by omega) (by omega)

/-- `while (prec > l)`: the padding before a string. -/
def padBefore (l prec : Word) (out : σ) : Option (Word × σ) :=
  if l.slt prec then padBefore l (prec - 1#32) (put out (int (ch ' '))) else some (prec, out)
termination_by (prec.toInt - l.toInt).toNat
decreasing_by
  rename_i hslt
  have hlt := BitVec.slt_iff_toInt_lt.1 hslt
  rw [toInt_sub_one hslt]
  omega

/-- `while (prec-- > 0)`: the padding after a string. -/
def padAfter (prec : Word) (out : σ) : Option σ :=
  if (0#32).slt prec then padAfter (prec - 1#32) (put out (int (ch ' '))) else some out
termination_by prec.toInt.toNat
decreasing_by
  rename_i hslt
  have hlt := BitVec.slt_iff_toInt_lt.1 hslt
  rw [toInt_sub_one hslt]
  have hzero : (0#32).toInt = 0 := rfl
  omega

/-- The case `'s'`. -/
def putString (prec : Word) (neg : Bool) (s : CString) (out : σ) : Option σ := do
  let l := BitVec.ofNat 32 s.chars.length
  let r ← (if neg then some (prec, out) else padBefore put l prec out)
  let prec := r.1 - l
  let out := s.chars.foldl (fun out c => put out (int c)) r.2
  if neg then padAfter put prec out else some out

/-- The case `'C'`. -/
def putEscaped (c : Word) (out : σ) : Option σ :=
  if 0x20 ≤ c.toInt ∧ c.toInt ≤ 0x7e ∧ c ≠ 0x5c#32 then some (put out c)
  else
    let out := put out 0x5c#32
    if c = 0x5c#32 then some (put out 0x5c#32)
    else if c = 0x09#32 then some (put out (int (ch 't')))
    else if c = 0x0b#32 then some (put out (int (ch 'v')))
    else if c = 0x0c#32 then some (put out (int (ch 'f')))
    else if c = 0x0d#32 then some (put out (int (ch 'r')))
    else if c = 0x0a#32 then some (put out (int (ch 'n')))
    else if c = 0x07#32 then some (put out (int (ch 'a')))
    else if c = 0x1b#32 then some (put out (int (ch 'e')))
    else if c = 0x00#32 then some (put out (int (ch '0')))
    else number put c 2#32 true false 16 (put out (int (ch 'x')))

/-- The letters of the conversions of numbers. -/
def IsNumber (c : Byte) : Prop :=
  c = ch 'd' ∨ c = ch 'u' ∨ c = ch 'x' ∨ c = ch 'o' ∨ c = ch 'b'

instance : DecidablePred IsNumber := fun _ => inferInstanceAs (Decidable (_ ∨ _))

/-- What the conversion of a number passes to `number`: the magnitude, the
sign and the base. -/
def numberArgs (c : Byte) (num : Word) : Word × Bool × ℕ :=
  if c = ch 'd' then if num.slt 0#32 then (-num, true, 10) else (num, false, 10)
  else (num, false, if c = ch 'x' then 16 else if c = ch 'o' then 8 else if c = ch 'b' then 2
    else 10)

/-- The `switch` on the conversion letter. -/
def convert (c : Byte) (prec : Word) (zero neg : Bool) (ap : List Arg) (out : σ) :
    Option (List Arg × σ) :=
  if c = 0#8 ∨ c = ch '%' then some (ap, put out (int (ch '%')))
  else if IsNumber c then do
    let arg ← argInt ap
    let a := numberArgs c arg.1
    let out ← number put a.1 prec zero a.2.1 a.2.2 out
    some (arg.2, out)
  else if c = ch 's' then do
    let arg ← argStr ap
    let out ← putString put prec neg arg.1 out
    some (arg.2, out)
  else if c = ch 'c' then do
    let arg ← argInt ap
    some (arg.2, put out arg.1)
  else if c = ch 'C' then do
    let arg ← argInt ap
    let out ← putEscaped put arg.1 out
    some (arg.2, out)
  else some (ap, out)

/-- The loop of `xprintf`, from an index of the format on. -/
def CString.xprintfFrom (fmt : CString) (i : ℕ) (ap : List Arg) (out : σ) : Option σ := do
  let c ← fmt.charAt i
  if c = 0#8 then some out
  else if c ≠ ch '%' then fmt |>.xprintfFrom (i + 1) ap (put out (int c))
  else do
    let c ← fmt.charAt (i + 1)
    let neg := decide (c = ch '-')
    let i := if neg then i + 2 else i + 1
    let c ← fmt.charAt i
    let zero := decide (c = ch '0')
    let i := if zero then i + 1 else i
    let w ← fmt.widthFrom i 0#32
    let c ← fmt.charAt w.2
    let r ← convert put c w.1 zero neg ap out
    -- at the NUL the cursor goes back by one, before the loop moves it on
    let i := if c = 0#8 then w.2 - 1 else w.2
    fmt |>.xprintfFrom (i + 1) r.1 r.2
partial_fixpoint

/-- `xprintf`. -/
def xprintf (fmt : CString) (ap : List Arg) (out : σ) : Option σ :=
  fmt.xprintfFrom put 0 ap out

end Walk

/-- The characters that a format gives when there is no bound. -/
def expand (fmt : CString) (ap : List Arg) : Option (List Word) :=
  xprintf (fun out c => out ++ [c]) fmt ap []

/-- Characters put at the end of a list one by one are the list. -/
theorem foldl_collect (cs : List Word) : cs.foldl (fun out c => out ++ [c]) [] = cs := by
  induction cs using List.reverseRecOn with
  | nil => rfl
  | append_singleton cs c ih => rw [List.foldl_append, ih, List.foldl_cons, List.foldl_nil]

/-! ## Reading a format -/

/-- The width that digits make of the one before them. -/
def widthOf (prec : Word) (ds : List Byte) : Word :=
  ds.foldl (fun prec c => prec * 10#32 + (int c - int (ch '0'))) prec

variable {σ : Type} {put : σ → Word → σ} {fmt : CString} {i : ℕ} {l : List Byte}

theorem charAt_cons {c : Byte} (h : fmt.chars.drop i = c :: l) : fmt.charAt i = some c := by
  have hlt : i < fmt.chars.length := by
    by_contra hge
    rw [List.drop_eq_nil_of_le (by omega)] at h
    cases h
  rw [CString.charAt, if_pos hlt, ← List.head?_drop, h, List.head?_cons]

theorem charAt_end (h : fmt.chars.drop i = []) (hi : i ≤ fmt.chars.length) :
    fmt.charAt i = some 0#8 := by
  have hge := List.drop_eq_nil_iff.1 h
  rw [CString.charAt, if_neg (by omega), if_pos (by omega)]

/-- What is read is the head of what is left, or the NUL. -/
theorem charAt_eq (h : fmt.chars.drop i = l) (hi : i ≤ fmt.chars.length) :
    fmt.charAt i = some (l.headD 0#8) := by
  cases l with
  | nil => exact charAt_end h hi
  | cons c l => exact charAt_cons h

theorem drop_succ {c : Byte} (h : fmt.chars.drop i = c :: l) :
    fmt.chars.drop (i + 1) = l ∧ i + 1 ≤ fmt.chars.length := by
  refine ⟨by rw [← List.drop_drop, h, List.drop_one, List.tail_cons], ?_⟩
  by_contra hge
  rw [List.drop_eq_nil_of_le (by omega)] at h
  cases h

theorem ne_zero_of_drop {c : Byte} (h : fmt.chars.drop i = c :: l) : c ≠ 0#8 := by
  rintro rfl
  have hmem : (0#8 : Byte) ∈ fmt.chars.drop i := by
    rw [h]
    exact List.mem_cons_self
  exact fmt.noNul (List.mem_of_mem_drop hmem)

/-- **The loop over a width** takes the digits there are. -/
theorem widthFrom_eq (h : fmt.chars.drop i = l) (hi : i ≤ fmt.chars.length) (prec : Word) :
    ∃ j, fmt.widthFrom i prec = some (widthOf prec (l.takeWhile (IsDigit ·)), j) ∧
      fmt.chars.drop j = l.dropWhile (IsDigit ·) ∧ i ≤ j ∧ j ≤ fmt.chars.length := by
  induction l generalizing i prec with
  | nil =>
    refine ⟨i, ?_, h, le_rfl, hi⟩
    rw [CString.widthFrom, charAt_end h hi, Option.bind_eq_bind, Option.bind_some,
      if_neg (by decide)]
    rfl
  | cons c l ih =>
    rw [CString.widthFrom, charAt_cons h, Option.bind_eq_bind, Option.bind_some]
    by_cases hc : IsDigit c
    · obtain ⟨hdrop, hle⟩ := drop_succ h
      obtain ⟨j, hw, hj, hij, hjl⟩ := ih hdrop hle (prec * 10#32 + (int c - int (ch '0')))
      refine ⟨j, ?_, ?_, by omega, hjl⟩
      · rw [if_pos hc, hw, List.takeWhile_cons_of_pos (by simpa using hc)]
        rfl
      · rw [hj, List.dropWhile_cons_of_pos (by simpa using hc)]
    · refine ⟨i, ?_, ?_, le_rfl, hi⟩
      · rw [if_neg hc, List.takeWhile_cons_of_neg (by simpa using hc)]
        rfl
      · rw [h, List.dropWhile_cons_of_neg (by simpa using hc)]

/-! ## Conversions -/

/-- What follows a `-`, if there is one. -/
def afterMinus (l : List Byte) : List Byte := if l.headD 0#8 = ch '-' then l.tail else l

/-- What follows a `0`, if there is one. -/
def afterZero (l : List Byte) : List Byte := if l.headD 0#8 = ch '0' then l.tail else l

/-- What follows the flags and the width: the conversion letter, and the rest
of the format. -/
def afterWidth (l : List Byte) : List Byte :=
  (afterZero (afterMinus l)).dropWhile (IsDigit ·)

/-- A step over one character of what is left, if it is the one given. -/
theorem drop_skip (h : fmt.chars.drop i = l) (hi : i ≤ fmt.chars.length) {d : Byte} (hd : d ≠ 0#8) :
    fmt.chars.drop (if l.headD 0#8 = d then i + 1 else i) =
        (if l.headD 0#8 = d then l.tail else l) ∧
      i ≤ (if l.headD 0#8 = d then i + 1 else i) ∧
      (if l.headD 0#8 = d then i + 1 else i) ≤ fmt.chars.length := by
  cases l with
  | nil =>
    rw [List.headD_nil, if_neg hd.symm, if_neg hd.symm]
    exact ⟨h, le_rfl, hi⟩
  | cons c l =>
    obtain ⟨hdrop, hle⟩ := drop_succ h
    split_ifs
    · exact ⟨hdrop, Nat.le_succ i, hle⟩
    · exact ⟨h, le_rfl, hi⟩

/-- **One conversion**: the flags, the width and the letter are read inside
the format, and the walk goes on behind the letter, or at the NUL. -/
theorem xprintfFrom_percent (h : fmt.chars.drop i = ch '%' :: l) :
    ∃ j, (∀ (σ : Type) (put : σ → Word → σ) (ap : List Arg) (out : σ),
        fmt.xprintfFrom put i ap out =
          (convert put ((afterWidth l).headD 0#8)
            (widthOf 0#32 ((afterZero (afterMinus l)).takeWhile (IsDigit ·)))
            (decide ((afterMinus l).headD 0#8 = ch '0')) (decide (l.headD 0#8 = ch '-'))
            ap out).bind
              fun r => fmt.xprintfFrom put j r.1 r.2) ∧
      fmt.chars.drop j = (afterWidth l).tail ∧ i < j ∧ j ≤ fmt.chars.length := by
  obtain ⟨hdrop₁, hle₁⟩ := drop_succ h
  obtain ⟨hdrop₂, hlt₂, hle₂⟩ := drop_skip hdrop₁ hle₁ (show ch '-' ≠ 0#8 by decide)
  obtain ⟨hdrop₃, hlt₃, hle₃⟩ := drop_skip hdrop₂ hle₂ (show ch '0' ≠ 0#8 by decide)
  obtain ⟨k, hwidth, hdrop₄, hlt₄, hle₄⟩ := widthFrom_eq hdrop₃ hle₃ 0#32
  have hletter : fmt.chars.drop k = afterWidth l := hdrop₄
  refine ⟨(if (afterWidth l).headD 0#8 = 0#8 then k - 1 else k) + 1, fun σ put ap out => ?_, ?_⟩
  · rw [CString.xprintfFrom, charAt_cons h]
    simp only [Option.bind_eq_bind, Option.bind_some, if_neg (show ch '%' ≠ 0#8 by decide),
      ne_eq, not_true, if_false, charAt_eq hdrop₁ hle₁, charAt_eq hdrop₂ hle₂,
      decide_eq_true_eq, hwidth, charAt_eq hdrop₄ hle₄]
    rfl
  · cases hafter : afterWidth l with
    | nil =>
      rw [hafter] at hletter
      rw [List.headD_nil, if_pos rfl, Nat.sub_add_cancel (by omega)]
      exact ⟨hletter, by omega, hle₄⟩
    | cons c rest =>
      rw [hafter] at hletter
      obtain ⟨hdrop₅, hle₅⟩ := drop_succ hletter
      rw [List.headD_cons, if_neg (ne_zero_of_drop hletter)]
      exact ⟨hdrop₅, by omega, hle₅⟩

theorem xprintfFrom_end (h : fmt.chars.drop i = []) (hi : i ≤ fmt.chars.length) (ap : List Arg)
    (out : σ) : fmt.xprintfFrom put i ap out = some out := by
  rw [CString.xprintfFrom, charAt_end h hi]
  rfl

theorem xprintfFrom_plain {c : Byte} (h : fmt.chars.drop i = c :: l) (hc : c ≠ ch '%')
    (ap : List Arg) (out : σ) :
    fmt.xprintfFrom put i ap out = fmt.xprintfFrom put (i + 1) ap (put out (int c)) := by
  rw [CString.xprintfFrom, charAt_cons h]
  simp only [Option.bind_eq_bind, Option.bind_some, if_neg (ne_zero_of_drop h), if_pos hc]

end Debug

end AntTracer
