import AntTracer.Debug.Printf
import Mathlib.Data.Nat.Digits.Lemmas

/-!
# The conversion of numbers

What `number` leaves in `buf` is a text and a NUL (`numberBuf_eq`), if there
is room for it: there is for every conversion but `%b` (`numberText_lt`). The
width counts all characters but the sign of a `%d` that is padded with spaces,
which makes such a column one character too wide (`numberText_eq_column_iff`).
-/

namespace AntTracer

namespace Debug

/-! ## Numerals -/

/-- The shortest numeral of a number. -/
def numeral (base n : ℕ) : List Byte :=
  if n = 0 then [ch '0'] else (Nat.digits base n).reverse.map fun d => hexString.getD d 0#8

/-- What `number` makes of a magnitude, with `p` the clipped width. -/
def numberText (n p : ℕ) (zero sign : Bool) (base : ℕ) : List Byte :=
  let t := numeral base n
  if sign then
    if zero then ch '-' :: (List.replicate (p - (t.length + 1)) (ch '0') ++ t)
    else List.replicate (p - t.length) (ch ' ') ++ ch '-' :: t
  else List.replicate (p - t.length) (if zero then ch '0' else ch ' ') ++ t

/-- The width after the test on `sizeof`. -/
def clip (prec : Word) : ℕ := min prec.toNat (bufSize - 2)

theorem push_eq {c : Byte} {cp : List Byte} (h : cp.length < bufSize) :
    push c cp = some (c :: cp) := if_pos h

/-- **The loop over the digits** puts them in `buf`, if there is room. -/
theorem digitsFrom_eq {base : ℕ} (hbase : 2 ≤ base) (n : ℕ) : ∀ (prec : ℤ) (cp : List Byte),
    cp.length ≤ bufSize → digitsFrom base n prec cp =
      if (Nat.digits base n).length + cp.length ≤ bufSize then
        some (prec - (Nat.digits base n).length,
          (Nat.digits base n).reverse.map (fun d => hexString.getD d 0#8) ++ cp)
      else none := by
  induction n using Nat.strong_induction_on with
  | _ n ih =>
    intro prec cp hcp
    rw [digitsFrom]
    by_cases hn : n = 0
    · subst hn
      simp [hcp]
    · have hdigits : Nat.digits base n = n % base :: Nat.digits base (n / base) :=
        Nat.digits_def' (by omega) (by omega)
      rw [if_neg hn, hdigits, List.length_cons]
      by_cases hlt : cp.length < bufSize
      · have hrest := ih (n / base) (Nat.div_lt_self (by omega) (by omega)) (prec - 1)
          (hexString.getD (n % base) 0#8 :: cp) hlt
        rw [if_pos hlt, hrest, List.length_cons]
        simp only [List.reverse_cons, List.map_append, List.map_cons, List.map_nil,
          List.append_assoc, List.singleton_append, Nat.add_assoc, Nat.add_comm 1]
        congr 3
        push_cast
        ring
      · rw [if_neg hlt, if_neg (by omega)]

theorem padFrom_eq (c : Byte) (k : ℕ) : ∀ (prec : ℤ) (cp : List Byte), prec.toNat = k →
    cp.length ≤ bufSize → padFrom c prec cp =
      if k + cp.length ≤ bufSize then some (List.replicate k c ++ cp) else none := by
  induction k with
  | zero =>
    intro prec cp hk hcp
    rw [padFrom, if_neg (by omega), if_pos (by omega)]
    rfl
  | succ k ih =>
    intro prec cp hk hcp
    rw [padFrom, if_pos (by omega)]
    by_cases hlt : cp.length < bufSize
    · have hrest := ih (prec - 1) (c :: cp) (by omega) hlt
      rw [push_eq hlt, Option.bind_eq_bind, Option.bind_some, hrest, List.length_cons,
        List.replicate_succ', List.append_assoc, List.singleton_append]
      simp only [Nat.add_assoc, Nat.add_comm 1]
    · rw [push, if_neg hlt, if_neg (by omega)]
      rfl

/-- The digits of a number in `buf`, a zero included. -/
theorem digits_eq {base : ℕ} (hbase : 2 ≤ base) (n : Word) (p : ℤ) :
    (if n = 0#32 then (push (ch '0') [0#8]).bind fun cp => some (p - 1, cp)
      else digitsFrom base n.toNat p [0#8]) =
      if (numeral base n.toNat).length < bufSize then
        some (p - (numeral base n.toNat).length, numeral base n.toNat ++ [0#8])
      else none := by
  by_cases hn : n = 0#32
  · subst hn
    rw [if_pos rfl]
    rfl
  · have hne : n.toNat ≠ 0 := fun h => hn (BitVec.eq_of_toNat_eq h)
    rw [if_neg hn, digitsFrom_eq hbase _ _ _ (by decide), numeral, if_neg hne]
    simp only [List.length_map, List.length_reverse, List.length_singleton, Nat.succ_le_iff]

theorem numberText_length (n p : ℕ) (zero sign : Bool) (base : ℕ) :
    (numberText n p zero sign base).length =
      if sign then if zero then max ((numeral base n).length + 1) p
        else max (numeral base n).length p + 1
      else max (numeral base n).length p := by
  cases sign <;> cases zero <;> simp [numberText] <;> omega

/-- **What `number` leaves in `buf`**: its text and a NUL, if there is room. -/
theorem numberBuf_eq {base : ℕ} (hbase : 2 ≤ base) (n prec : Word) (zero sign : Bool) :
    numberBuf n prec zero sign base =
      if (numberText n.toNat (clip prec) zero sign base).length < bufSize then
        some (numberText n.toNat (clip prec) zero sign base ++ [0#8])
      else none := by
  have hB : bufSize = 16 := rfl
  have hclip : (if prec.toNat > bufSize - 2 then (bufSize : ℤ) - 2 else prec.toNat) =
      clip prec := by
    rw [clip]
    split <;> omega
  have hpush : push 0#8 [] = some [0#8] := rfl
  have hdigits := digits_eq hbase n (clip prec)
  rw [numberBuf]
  simp only [hclip, hpush, Option.bind_eq_bind, Option.bind_some, hdigits]
  set t := numeral base n.toNat with ht
  set p := clip prec with hp
  have hlen : (t ++ [0#8]).length = t.length + 1 := by simp
  by_cases hroom : t.length < bufSize
  · rw [if_pos hroom, Option.bind_some]
    cases sign with
    | false =>
      have hpad := padFrom_eq (if zero then ch '0' else ch ' ') (p - t.length) (p - t.length)
        (t ++ [0#8]) (by omega) (by omega)
      simp only [Bool.false_eq_true, if_false, Option.bind_some, hpad, numberText, false_and, hlen,
        List.length_append, List.length_replicate, List.append_assoc, ← ht]
      split_ifs <;> first | rfl | omega
    | true =>
      cases zero with
      | true =>
        -- the sign goes in front of the padding
        have hpad := padFrom_eq (ch '0') (p - (t.length + 1)) (p - t.length - 1) (t ++ [0#8])
          (by omega) (by omega)
        rw [hlen] at hpad
        simp only [if_true, Option.bind_some, hpad, numberText, and_self, ← ht, List.length_cons,
          List.length_append, List.length_replicate]
        set pad := List.replicate (p - (t.length + 1)) (ch '0') with hpadding
        have hpl : (pad ++ (t ++ [0#8])).length = p - (t.length + 1) + (t.length + 1) := by
          rw [List.length_append, hlen, hpadding, List.length_replicate]
        by_cases hfit : p - (t.length + 1) + (t.length + 1) ≤ bufSize
        · rw [if_pos hfit, Option.bind_some, push, hpl]
          simp only [Nat.add_assoc, List.append_assoc, List.cons_append]
        · rw [if_neg hfit, if_neg (by omega)]
          rfl
      | false =>
        simp only [if_true, Bool.false_eq_true, if_false, and_false, numberText, ← ht]
        by_cases hsign : t.length + 1 < bufSize
        · have hpad := padFrom_eq (ch ' ') (p - t.length) (p - t.length) (ch '-' :: (t ++ [0#8]))
            (by omega) (by simp; omega)
          rw [push_eq (by omega), Option.bind_some, Option.bind_some, hpad]
          simp only [List.length_cons, hlen, List.length_append, List.length_replicate,
            List.append_assoc, List.cons_append]
          split_ifs <;> first | rfl | omega
        · rw [push, if_neg (by omega), if_neg (by simp; omega)]
          rfl
  · have hlong : ¬ (numberText n.toNat p zero sign base).length < bufSize := by
      rw [numberText_length, ← ht]
      split_ifs <;> omega
    rw [if_neg hroom, if_neg hlong]
    rfl

/-! ## The room in `buf` -/

theorem numeral_length_le {base n k : ℕ} (hbase : 2 ≤ base) (hk : 1 ≤ k) :
    (numeral base n).length ≤ k ↔ n < base ^ k := by
  rw [numeral]
  split_ifs with hn
  · subst hn
    simp only [List.length_singleton, hk, true_iff]
    positivity
  · rw [List.length_map, List.length_reverse, Nat.digits_length_le_iff hbase]

/-- The base of a conversion. -/
def baseOf (c : Byte) : ℕ :=
  if c = ch 'x' then 16 else if c = ch 'o' then 8 else if c = ch 'b' then 2 else 10

theorem numberArgs_base (c : Byte) (num : Word) : (numberArgs c num).2.2 = baseOf c := by
  rw [numberArgs, baseOf]
  split_ifs <;> first | rfl | (subst_vars; contradiction)

theorem two_le_baseOf (c : Byte) : 2 ≤ baseOf c := by
  rw [baseOf]
  split_ifs <;> decide

theorem numberArgs_sign {c : Byte} (hc : c ≠ ch 'd') (num : Word) :
    (numberArgs c num).1 = num ∧ (numberArgs c num).2.1 = false := by
  rw [numberArgs, if_neg hc]
  exact ⟨rfl, rfl⟩

theorem numberArgs_signed {c : Byte} {num : Word} (h : (numberArgs c num).2.1 = true) :
    c = ch 'd' := by
  by_contra hne
  rw [(numberArgs_sign hne num).2] at h
  cases h

/-- All texts but those of `%b` have room. -/
theorem numberText_lt {c : Byte} (hc : c ≠ ch 'b') (n : Word) (prec : Word) (zero sign : Bool)
    (hsign : sign = true → baseOf c = 10) :
    (numberText n.toNat (clip prec) zero sign (baseOf c)).length < bufSize := by
  have hB : bufSize = 16 := rfl
  have hclip : clip prec ≤ 14 := min_le_right ..
  have hn := n.isLt
  have hdec : (numeral 10 n.toNat).length ≤ 10 :=
    (numeral_length_le (by decide) (by decide)).2 (hn.trans (by decide))
  have hany : (numeral (baseOf c) n.toNat).length ≤ 11 := by
    refine (numeral_length_le (two_le_baseOf c) (by decide)).2 (hn.trans ?_)
    rw [baseOf, if_neg hc]
    split_ifs <;> decide
  rw [numberText_length]
  split_ifs with hs hz
  · rw [hsign hs]
    omega
  · rw [hsign hs]
    omega
  · omega

theorem numberBuf_isSome_iff {base : ℕ} (hbase : 2 ≤ base) (n prec : Word) (zero sign : Bool) :
    (numberBuf n prec zero sign base).isSome ↔
      (numberText n.toNat (clip prec) zero sign base).length < bufSize := by
  rw [numberBuf_eq hbase]
  split_ifs with h <;> simp [h]

/-- A binary text has room for 15 digits. -/
theorem binary_lt_iff (n prec : Word) (zero : Bool) :
    (numberText n.toNat (clip prec) zero false 2).length < bufSize ↔ n.toNat < 2 ^ 15 := by
  have hB : bufSize = 16 := rfl
  have hclip : clip prec ≤ 14 := min_le_right ..
  have hdigits : (numeral 2 n.toNat).length ≤ 15 ↔ n.toNat < 2 ^ 15 :=
    numeral_length_le le_rfl (by decide)
  rw [numberText_length, ← hdigits]
  simp only [Bool.false_eq_true, if_false]
  omega

/-- **`number` stays inside `buf` just when** the conversion is not `%b` or
the argument has at most 15 binary digits. -/
theorem number_inside_iff (c : Byte) (arg prec : Word) (zero : Bool) :
    let a := numberArgs c arg
    (numberBuf a.1 prec zero a.2.1 a.2.2).isSome ↔ c ≠ ch 'b' ∨ arg.toNat < 2 ^ 15 := by
  intro a
  have hbase : a.2.2 = baseOf c := numberArgs_base c arg
  rw [hbase, numberBuf_isSome_iff (two_le_baseOf c)]
  by_cases hb : c = ch 'b'
  · obtain ⟨hnum, hsign⟩ := numberArgs_sign (c := c) (by rw [hb]; decide) arg
    have ha : a.1 = arg ∧ a.2.1 = false := ⟨hnum, hsign⟩
    have htwo : baseOf c = 2 := by
      rw [hb]
      decide
    rw [ha.1, ha.2, htwo, binary_lt_iff]
    simp [hb]
  · refine iff_of_true (numberText_lt hb _ _ _ _ fun hsign => ?_) (.inl hb)
    -- only a `%d` has a sign
    rw [numberArgs_signed hsign]
    decide

/-- The sixteenth binary digit is stored under `buf`. -/
theorem number_binary_outside :
    ¬ (numberBuf (numberArgs (ch 'b') 0x8000#32).1 0#32 false (numberArgs (ch 'b') 0x8000#32).2.1
      (numberArgs (ch 'b') 0x8000#32).2.2).isSome := by
  rw [show numberArgs (ch 'b') 0x8000#32 = (0x8000#32, false, 2) by decide,
    numberBuf_isSome_iff le_rfl, binary_lt_iff]
  decide

/-! ## What is emitted -/

variable {σ : Type} {put : σ → Word → σ}

/-- A text in `buf` is emitted up to its NUL. -/
theorem emit_eq {cs : List Byte} (h : 0#8 ∉ cs) (out : σ) :
    emit put (cs ++ [0#8]) out = some ((cs.map int).foldl put out) := by
  induction cs generalizing out with
  | nil => rfl
  | cons c cs ih =>
    simp only [List.mem_cons, not_or] at h
    obtain ⟨hc, hcs⟩ := h
    rw [List.cons_append, emit, if_neg fun h0 => hc h0.symm, ih hcs]
    rfl

theorem zero_notMem_numeral {base n : ℕ} (hbase : 2 ≤ base) (h16 : base ≤ 16) :
    0#8 ∉ numeral base n := by
  have hdigits : ∀ d < 16, hexString.getD d 0#8 ≠ 0#8 := by decide
  rw [numeral]
  split_ifs with hn
  · decide
  · intro hmem
    obtain ⟨d, hd, hzero⟩ := List.mem_map.1 hmem
    have hlt := Nat.digits_lt_base hbase (List.mem_reverse.1 hd)
    exact hdigits d (by omega) hzero

theorem zero_notMem_numberText {base : ℕ} (hbase : 2 ≤ base) (h16 : base ≤ 16) (n p : ℕ)
    (zero sign : Bool) : 0#8 ∉ numberText n p zero sign base := by
  have hnum := zero_notMem_numeral (n := n) hbase h16
  have hchars : 0#8 ≠ ch '-' ∧ 0#8 ≠ ch '0' ∧ 0#8 ≠ ch ' ' := by decide
  rw [numberText]
  split_ifs <;> simp only [List.mem_cons, List.mem_append, List.mem_replicate, not_or, not_and] <;>
    tauto

/-- **`number` emits its text.** -/
theorem number_eq {c : Byte} (hc : c ≠ ch 'b') (n prec : Word) (zero sign : Bool)
    (hsign : sign = true → baseOf c = 10) (out : σ) :
    number put n prec zero sign (baseOf c) out =
      some (((numberText n.toNat (clip prec) zero sign (baseOf c)).map int).foldl put out) := by
  have h16 : baseOf c ≤ 16 := by
    rw [baseOf]
    split_ifs <;> decide
  rw [number, numberBuf_eq (two_le_baseOf c), if_pos (numberText_lt hc n prec zero sign hsign),
    Option.bind_eq_bind, Option.bind_some,
    emit_eq (zero_notMem_numberText (two_le_baseOf c) h16 _ _ _ _)]

/-- The conversion of a number. -/
theorem convert_number {c : Byte} (hc : IsNumber c) (hb : c ≠ ch 'b') (prec : Word)
    (zero neg : Bool) (arg : Word) (ap : List Arg) (out : σ) :
    convert put c prec zero neg (.int arg :: ap) out =
      some (ap, ((numberText (numberArgs c arg).1.toNat (clip prec) zero (numberArgs c arg).2.1
        (baseOf c)).map int).foldl put out) := by
  have hne : ¬ (c = 0#8 ∨ c = ch '%') := by
    rcases hc with rfl | rfl | rfl | rfl | rfl <;> decide
  have hsign : (numberArgs c arg).2.1 = true → baseOf c = 10 := by
    intro h
    rw [numberArgs_signed h]
    decide
  rw [convert, if_neg hne, if_pos hc]
  simp only [argInt, Option.bind_eq_bind, Option.bind_some, numberArgs_base,
    number_eq hb _ _ _ _ hsign]

/-! ## Columns -/

/-- The value a conversion is of. -/
def valueOf (c : Byte) (arg : Word) : ℤ := if c = ch 'd' then arg.toInt else arg.toNat

/-- The shortest representation of a value. -/
def shortest (base : ℕ) (v : ℤ) : List Byte :=
  if v < 0 then ch '-' :: numeral base v.natAbs else numeral base v.natAbs

/-- The shortest representation in a column of `w` characters: padded on the
left with spaces, or behind the sign with zeros. -/
def column (w : ℕ) (zero : Bool) (base : ℕ) (v : ℤ) : List Byte :=
  let pad := w - (shortest base v).length
  if zero then
    (if v < 0 then [ch '-'] else []) ++ List.replicate pad (ch '0') ++ numeral base v.natAbs
  else List.replicate pad (ch ' ') ++ shortest base v

theorem column_length (w : ℕ) (zero : Bool) (base : ℕ) (v : ℤ) :
    (column w zero base v).length = max w (shortest base v).length := by
  cases zero <;> by_cases hv : v < 0 <;> simp [column, shortest, hv] <;> omega

/-- The magnitude and the sign that `number` gets are those of the value. -/
theorem numberArgs_value (c : Byte) (arg : Word) :
    (numberArgs c arg).1.toNat = (valueOf c arg).natAbs ∧
      ((numberArgs c arg).2.1 = true ↔ valueOf c arg < 0) := by
  rw [numberArgs, valueOf]
  by_cases hd : c = ch 'd'
  · rw [if_pos hd, if_pos hd]
    have hslt : arg.slt 0#32 = true ↔ arg.toInt < 0 := by
      rw [BitVec.slt_iff_toInt_lt]
      rfl
    have hint := BitVec.toInt_eq_toNat_cond arg
    have hlt := arg.isLt
    by_cases hneg : arg.slt 0#32 = true
    · rw [if_pos hneg]
      have h := hslt.1 hneg
      refine ⟨?_, by simp [h]⟩
      rw [BitVec.toNat_neg]
      split at hint <;> omega
    · rw [if_neg hneg]
      have h := mt hslt.2 hneg
      refine ⟨?_, by simp [h]⟩
      show arg.toNat = arg.toInt.natAbs
      split at hint <;> omega
  · rw [if_neg hd, if_neg hd]
    exact ⟨(Int.natAbs_natCast _).symm, by simp⟩

/-- **A text is the column just when** it is not that of a negative number in
a wider column of spaces. -/
theorem numberText_eq_column_iff (w : ℕ) (zero sign : Bool) (base : ℕ) {v : ℤ}
    (hsign : sign = true ↔ v < 0) :
    numberText v.natAbs w zero sign base = column w zero base v ↔
      ¬ (v < 0 ∧ zero = false ∧ (numeral base v.natAbs).length < w) := by
  by_cases hv : v < 0
  · obtain rfl : sign = true := hsign.2 hv
    cases zero with
    | true => simp [numberText, column, shortest, hv]
    | false =>
      simp only [numberText, column, shortest, hv, if_true, Bool.false_eq_true, if_false,
        List.append_cancel_right_eq, List.length_cons, true_and, not_lt]
      constructor
      · intro h
        have := congrArg List.length h
        rw [List.length_replicate, List.length_replicate] at this
        omega
      · intro h
        rw [Nat.sub_eq_zero_of_le h, Nat.sub_eq_zero_of_le (by omega)]
  · obtain rfl : sign = false := by
      cases sign with
      | false => rfl
      | true => exact absurd (hsign.1 rfl) hv
    cases zero <;> simp [numberText, column, shortest, hv]

/-! ## A conversion alone -/

/-- The character of a decimal digit. -/
def digitChar (d : ℕ) : Byte := hexString.getD d 0#8

theorem digitChar_isDigit : ∀ d < 10, IsDigit (digitChar d) ∧
    int (digitChar d) - int (ch '0') = BitVec.ofNat 32 d ∧ (digitChar d = ch '0' ↔ d = 0) := by
  decide

/-- The width that decimal digits write. -/
theorem widthOf_digits {ds : List ℕ} (h : ∀ d ∈ ds, d < 10) :
    widthOf 0#32 (ds.map digitChar) = BitVec.ofNat 32 (Nat.ofDigits 10 ds.reverse) := by
  induction ds using List.reverseRecOn with
  | nil => rfl
  | append_singleton ds d ih =>
    have hd := (digitChar_isDigit d (h d (by simp))).2.1
    have hds := ih fun d' hd' => h d' (List.mem_append_left _ hd')
    rw [widthOf] at hds ⊢
    rw [List.map_append, List.foldl_append, hds, List.reverse_append, List.reverse_singleton,
      List.singleton_append, Nat.ofDigits_cons, List.map_singleton, List.foldl_cons, List.foldl_nil,
      hd, ← BitVec.ofNat_mul, ← BitVec.ofNat_add]
    congr 1
    ring

/-- A format that is one conversion of a number: its flag, the digits of its
width and its letter. -/
structure NumberSpec where
  zero : Bool
  width : List ℕ
  letter : Byte
  digit : ∀ d ∈ width, d < 10
  /-- A zero in front is the flag. -/
  head : zero = false → width.head? ≠ some 0
  isNumber : IsNumber letter

/-- The format. -/
def NumberSpec.chars (f : NumberSpec) : List Byte :=
  ch '%' :: ((if f.zero then [ch '0'] else []) ++ f.width.map digitChar ++ [f.letter])

theorem IsNumber.not_digit {c : Byte} (h : IsNumber c) :
    ¬ IsDigit c ∧ c ≠ ch '-' ∧ c ≠ ch '0' ∧ c ≠ 0#8 := by
  rcases h with rfl | rfl | rfl | rfl | rfl <;> decide

/-- What follows the `%` is read as the flag, the width and the letter. -/
theorem NumberSpec.read (f : NumberSpec) :
    let l := (if f.zero then [ch '0'] else []) ++ f.width.map digitChar ++ [f.letter]
    afterMinus l = l ∧ decide (l.headD 0#8 = ch '0') = f.zero ∧
      afterZero l = f.width.map digitChar ++ [f.letter] := by
  obtain ⟨zero, width, letter, hdigit, hhead, hnumber⟩ := f
  obtain ⟨-, hminus, hzero, -⟩ := hnumber.not_digit
  have hdash : ∀ d < 10, digitChar d ≠ ch '-' := by decide
  cases zero with
  | true =>
    exact ⟨if_neg (show ch '0' ≠ ch '-' by decide), decide_eq_true (show ch '0' = ch '0' from rfl),
      if_pos rfl⟩
  | false =>
    simp only [Bool.false_eq_true, if_false, List.nil_append]
    cases width with
    | nil =>
      refine ⟨if_neg hminus, ?_, if_neg hzero⟩
      exact decide_eq_false hzero
    | cons d ds =>
      have hd := hdigit d List.mem_cons_self
      have hne : digitChar d ≠ ch '0' := by
        intro h
        obtain rfl := (digitChar_isDigit d hd).2.2.1 h
        exact hhead rfl rfl
      refine ⟨if_neg (hdash d hd), ?_, if_neg hne⟩
      exact decide_eq_false hne

/-- **What a conversion of a number emits.** -/
theorem expand_number (f : NumberSpec) (hb : f.letter ≠ ch 'b') {fmt : CString}
    (hfmt : fmt.chars = f.chars) (arg : Word) (ap : List Arg) :
    expand fmt (.int arg :: ap) =
      some ((numberText (numberArgs f.letter arg).1.toNat
        (clip (BitVec.ofNat 32 (Nat.ofDigits 10 f.width.reverse))) f.zero
        (numberArgs f.letter arg).2.1 (baseOf f.letter)).map int) := by
  obtain ⟨hminus, hzero, hafter⟩ := f.read
  set l := (if f.zero then [ch '0'] else []) ++ f.width.map digitChar ++ [f.letter] with hl
  have hdrop : fmt.chars.drop 0 = ch '%' :: l := hfmt
  have hall : ∀ c ∈ f.width.map digitChar, decide (IsDigit c) = true := by
    intro c hc
    obtain ⟨d, hd, rfl⟩ := List.mem_map.1 hc
    exact decide_eq_true (digitChar_isDigit d (f.digit d hd)).1
  obtain ⟨hstop, hkeep⟩ : [f.letter].takeWhile (IsDigit ·) = [] ∧
      [f.letter].dropWhile (IsDigit ·) = [f.letter] := by
    simp [f.isNumber.not_digit.1]
  have htake : (afterZero (afterMinus l)).takeWhile (IsDigit ·) = f.width.map digitChar := by
    rw [hminus, hafter, List.takeWhile_append_of_pos hall, hstop, List.append_nil]
  have hrest : afterWidth l = [f.letter] := by
    rw [afterWidth, hminus, hafter, List.dropWhile_append_of_pos hall, hkeep]
  obtain ⟨j, hstep, hj, -, hjl⟩ := xprintfFrom_percent hdrop
  rw [hrest] at hj
  rw [expand, xprintf, hstep, hrest, htake, hminus, hzero, List.headD_cons,
    convert_number f.isNumber hb, Option.bind_some, xprintfFrom_end hj hjl,
    widthOf_digits f.digit]
  exact congrArg some (foldl_collect _)

/-- **A column is right just when** it is not that of a negative number, wider
than its digits and padded with spaces. -/
theorem expand_number_iff (f : NumberSpec) (hb : f.letter ≠ ch 'b') {fmt : CString}
    (hfmt : fmt.chars = f.chars) (hw : Nat.ofDigits 10 f.width.reverse ≤ 14) (arg : Word)
    (ap : List Arg) :
    let w := Nat.ofDigits 10 f.width.reverse
    let v := valueOf f.letter arg
    expand fmt (.int arg :: ap) = some ((column w f.zero (baseOf f.letter) v).map int) ↔
      ¬ (v < 0 ∧ f.zero = false ∧ (numeral (baseOf f.letter) v.natAbs).length < w) := by
  intro w v
  have hint : Function.Injective int := by
    intro a b h
    have := congrArg (BitVec.setWidth 8) h
    simpa [int] using this
  have hclip : clip (BitVec.ofNat 32 w) = w := by
    have hB : bufSize = 16 := rfl
    rw [clip, BitVec.toNat_ofNat, Nat.mod_eq_of_lt (by omega)]
    exact min_eq_left (by omega)
  obtain ⟨hmag, hsign⟩ := numberArgs_value f.letter arg
  rw [expand_number f hb hfmt, hclip, hmag, Option.some.injEq,
    (List.map_injective_iff.2 hint).eq_iff]
  exact numberText_eq_column_iff w f.zero _ _ hsign

/-- `%3d`, as the column of signal strengths is written. -/
def rssiSpec : NumberSpec :=
  ⟨false, [3], ch 'd', by decide, by decide, .inl rfl⟩

/-- The format. -/
def rssiFormat : CString := ⟨rssiSpec.chars, by decide⟩

/-- Two digits and a sign take four characters of a column of three. -/
theorem expand_rssi : expand rssiFormat [.int (-60#32)] =
      some ([ch ' ', ch '-', ch '6', ch '0'].map int) ∧
    expand rssiFormat [.int (-60#32)] ≠ some ((column 3 false 10 (-60)).map int) := by
  have htext : numberText 60 3 false true 10 = [ch ' ', ch '-', ch '6', ch '0'] := by
    norm_num [numberText, numeral]
    exact ⟨rfl, rfl⟩
  have hcolumn : ((column 3 false 10 (-60)).map int).length = 3 := by
    rw [List.length_map, column_length]
    norm_num [shortest, numeral]
  have hexpand : expand rssiFormat [.int (-60#32)] =
      some ([ch ' ', ch '-', ch '6', ch '0'].map int) := by
    rw [← htext]
    exact expand_number rssiSpec (by decide) rfl _ _
  refine ⟨hexpand, fun h => ?_⟩
  have hlen := congrArg List.length (Option.some.inj (hexpand.symm.trans h))
  rw [hcolumn] at hlen
  exact absurd hlen (by decide)

/-- `%05x` of 42. -/
theorem expand_hex : expand ⟨ch '%' :: ([ch '0'] ++ [5].map digitChar ++ [ch 'x']), by decide⟩
    [.int 42#32] = some ((column 5 true 16 42).map int) :=
  (expand_number_iff ⟨true, [5], ch 'x', by decide, by decide, .inr (.inr (.inl rfl))⟩
    (by decide) rfl (by decide) 42#32 []).2 (by simp)

end Debug

end AntTracer
