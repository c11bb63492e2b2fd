import AntTracer.Debug.Printf
import AntTracer.Library.Runs

/-!
# Strings on the debug port

`debug.c` writes to channel 0 of the RTT buffers, with a CR in front of each
newline, and sets the mode of the channel before it does: a write that does
not fit waits, or is skipped. `wrStr` writes a string from newline to newline,
but its second cursor does not go past one. A string without a newline is
written as it should be, and with one the loop does not end
(`putString_iff`).
-/

namespace AntTracer

namespace Debug

open Stores

/-! ## The source -/

/-- The mode of an RTT channel: what is done about a write that does not
fit. -/
inductive RttMode where
  | noBlockSkip
  | noBlockTrim
  | blockIfFifoFull
  deriving DecidableEq

/-- The static variable of `setMode`, the mode of channel 0, and the bytes
that `SEGGER_RTT_Write` was given, each with the mode it found. -/
structure Rtt where
  mode : Bool := false
  flags : RttMode := .noBlockSkip
  written : List (Byte × RttMode) := []

/-- `setMode`. -/
def setMode (block : Bool) (p : Rtt) : Rtt :=
  if p.mode = block then p
  else { p with mode := block, flags := if block then .blockIfFifoFull else .noBlockSkip }

/-- `SEGGER_RTT_Write(0, ...)`, which takes the bytes it is given. -/
def Rtt.write (bs : List Byte) (p : Rtt) : Rtt :=
  { p with written := p.written ++ bs.map fun c => (c, p.flags) }

/-- `wrChr`. -/
def wrChr (chr : Word) (p : Rtt) : Rtt :=
  let p := if chr = int (ch '\n') then wrChr (int (ch '\r')) p else p
  p.write [chr.setWidth 8]
termination_by if chr = int (ch '\n') then 1 else 0
decreasing_by
  rename_i hchr
  rw [hchr]
  decide

/-- `DebugPutChar`. -/
def debugPutChar (chr : Word) (p : Rtt) : Rtt := wrChr chr (setMode false p)

/-- `DebugPutCharBlocked`. -/
def debugPutCharBlocked (chr : Word) (p : Rtt) : Rtt := wrChr chr (setMode true p)

/-- `while (s < se && *s != '\n')`. -/
def skipLine (m : ℕ → Byte) (se s : ℕ) : ℕ :=
  if s < se ∧ m s ≠ ch '\n' then skipLine m se (s + 1) else s
termination_by se - s

/-- The loop of `wrStr`. There is no result when it does not end. -/
def Rtt.wrStrFrom (m : ℕ → Byte) (se str s : ℕ) (p : Rtt) : Option Rtt :=
  if s < se then
    let s := skipLine m se s
    -- the number of bytes is unsigned
    let p := p.write (block m str (BitVec.ofInt 32 (s - str)).toNat)
    if s < se ∧ m s = ch '\n' then
      debugPutChar (int (ch '\n')) p |>.wrStrFrom m se (s + 1) s
    else p |>.wrStrFrom m se s s
  else some p
partial_fixpoint

/-- `wrStr`, with the memory that holds the string. -/
def wrStr (m : ℕ → Byte) (str : ℕ) (len : Word) (p : Rtt) : Option Rtt :=
  p.wrStrFrom m (str + len.toNat) str str

/-- `DebugPutString`. -/
def debugPutString (m : ℕ → Byte) (str : ℕ) (len : Word) (p : Rtt) : Option Rtt :=
  wrStr m str len (setMode false p)

/-- `DebugPutStringBlocked`. -/
def debugPutStringBlocked (m : ℕ → Byte) (str : ℕ) (len : Word) (p : Rtt) : Option Rtt :=
  wrStr m str len (setMode true p)

/-- A call of one of the functions that write. -/
inductive PutCall where
  | char (chr : Word)
  | charBlocked (chr : Word)
  | string (m : ℕ → Byte) (str : ℕ) (len : Word)
  | stringBlocked (m : ℕ → Byte) (str : ℕ) (len : Word)

/-- Make a call. -/
def putCall (p : Rtt) : PutCall → Option Rtt
  | .char chr => some (debugPutChar chr p)
  | .charBlocked chr => some (debugPutCharBlocked chr p)
  | .string m str len => debugPutString m str len p
  | .stringBlocked m str len => debugPutStringBlocked m str len p

/-! ## What strings are written as -/

/-- A text with a CR in front of each newline. -/
def crlf (t : List Byte) : List Byte :=
  t.flatMap fun c => if c = ch '\n' then [ch '\r', ch '\n'] else [c]

/-- The call returns, and what it passed on is this text. -/
def Passes (p : Rtt) (r : Option Rtt) (t : List Byte) : Prop :=
  ∃ p', r = some p' ∧ p'.written.map Prod.fst = p.written.map Prod.fst ++ t

/-- It is this text, all of it in blocking mode. -/
def PassesBlocked (p : Rtt) (r : Option Rtt) (t : List Byte) : Prop :=
  ∃ p', r = some p' ∧ p'.written = p.written ++ t.map fun c => (c, .blockIfFifoFull)

theorem crlf_of_notMem {t : List Byte} (h : ch '\n' ∉ t) : crlf t = t := by
  induction t with
  | nil => rfl
  | cons c t ih =>
    obtain ⟨hc, ht⟩ := List.ne_and_not_mem_of_not_mem_cons h
    rw [crlf, List.flatMap_cons, if_neg (Ne.symm hc), ← crlf, ih ht, List.singleton_append]

/-! ## The mode of the channel -/

/-- The static variable says what mode the channel is in. -/
def Rtt.Agrees (p : Rtt) : Prop :=
  p.flags = if p.mode then .blockIfFifoFull else .noBlockSkip

variable {p p' : Rtt} {m : ℕ → Byte} {se str s : ℕ} {len : Word}

theorem Rtt.Agrees.setMode (h : p.Agrees) (block : Bool) : (setMode block p).Agrees := by
  unfold Debug.setMode
  split
  · exact h
  · rfl

theorem Rtt.Agrees.flags_setMode (h : p.Agrees) (block : Bool) :
    (Debug.setMode block p).flags = if block then .blockIfFifoFull else .noBlockSkip := by
  unfold Debug.setMode
  split
  · rename_i hmode
    rw [h, hmode]
  · rfl

theorem written_setMode (block : Bool) (p : Rtt) : (setMode block p).written = p.written := by
  unfold setMode
  split <;> rfl

theorem Rtt.Agrees.write (h : p.Agrees) (bs : List Byte) : (p.write bs).Agrees := h

theorem Rtt.Agrees.wrChr (h : p.Agrees) (chr : Word) : (wrChr chr p).Agrees := by
  rw [Debug.wrChr]
  split
  · rw [Debug.wrChr, if_neg (by decide)]
    exact h
  · exact h

/-! ## The two loops -/

/-- **The inner loop** stops at the first newline, or at the end. -/
theorem skipLine_stops (hs : s ≤ se) : s ≤ skipLine m se s ∧ skipLine m se s ≤ se ∧
    (∀ j, s ≤ j → j < skipLine m se s → m j ≠ ch '\n') ∧
    (skipLine m se s < se → m (skipLine m se s) = ch '\n') := by
  induction s using skipLine.induct m se with
  | case1 s hgo ih =>
    obtain ⟨hle, hse, hbefore, hat⟩ := ih hgo.1
    rw [skipLine, if_pos hgo]
    refine ⟨by omega, hse, fun j hj hlt => ?_, hat⟩
    rcases hj.eq_or_lt with rfl | hj
    · exact hgo.2
    · exact hbefore j hj hlt
  | case2 s hstop =>
    rw [skipLine, if_neg hstop]
    refine ⟨le_rfl, hs, fun j hj hlt => absurd hlt (by omega), fun hlt => ?_⟩
    exact not_not.1 fun hne => hstop ⟨hlt, hne⟩

/-- **At a newline the outer loop stays**, so it never ends if there is one
ahead. -/
theorem wrStrFrom_hangs {j : ℕ} (hj : s ≤ j) (hlt : j < se) (hnl : m j = ch '\n') (str : ℕ)
    (p : Rtt) : p.wrStrFrom m se str s = none := by
  cases hr : p.wrStrFrom m se str s with
  | none => rfl
  | some r =>
    refine absurd ⟨j, hj, hlt, hnl⟩ (Rtt.wrStrFrom.partial_correctness m se
      (fun _ s _ _ => ¬ ∃ j, s ≤ j ∧ j < se ∧ m j = ch '\n') ?_ str s p r hr)
    rintro wrStrFrom ih str s p r hr ⟨j, hj, hlt, hnl⟩
    obtain ⟨-, hse, hbefore, hat⟩ := skipLine_stops (m := m) (hj.trans hlt.le)
    have hle : skipLine m se s ≤ j := not_lt.1 fun hlt' => hbefore j hj hlt' hnl
    rw [if_pos (by omega)] at hr
    dsimp only at hr
    -- the cursor is at the newline, and so it is in the next round
    rw [if_pos ⟨by omega, hat (by omega)⟩] at hr
    exact ih _ _ _ _ hr ⟨skipLine m se s, le_rfl, by omega, hat (by omega)⟩

theorem wrStrFrom_end (str : ℕ) (p : Rtt) : p.wrStrFrom m se str se = some p := by
  rw [Rtt.wrStrFrom, if_neg (lt_irrefl se)]

/-- Without a newline one write takes the whole string. -/
theorem wrStr_whole (hno : ch '\n' ∉ block m str len.toNat) (p : Rtt) :
    wrStr m str len p = some (p.write (block m str len.toNat)) := by
  rw [wrStr]
  by_cases hlen : len.toNat = 0
  · rw [hlen, Nat.add_zero, wrStrFrom_end]
    simp [Rtt.write, block]
  obtain ⟨hle, hse, -, hat⟩ := skipLine_stops (m := m) (Nat.le_add_right str len.toNat)
  have hend : skipLine m (str + len.toNat) str = str + len.toNat := by
    refine hse.antisymm (not_lt.1 fun hlt => hno ?_)
    refine List.mem_map.2 ⟨skipLine m (str + len.toNat) str - str, List.mem_range.2 (by omega), ?_⟩
    rw [Nat.add_sub_cancel' hle, hat hlt]
  have hcount : (BitVec.ofInt 32 (((str + len.toNat : ℕ) : ℤ) - str)).toNat = len.toNat := by
    rw [Nat.cast_add, add_sub_cancel_left, BitVec.ofInt_natCast, BitVec.ofNat_toNat,
      BitVec.setWidth_eq]
  rw [Rtt.wrStrFrom, if_pos (by omega)]
  dsimp only
  rw [hend, if_neg (by omega), hcount, wrStrFrom_end]

theorem wrStr_hangs (hnl : ch '\n' ∈ block m str len.toNat) (p : Rtt) :
    wrStr m str len p = none := by
  obtain ⟨i, hi, heq⟩ := List.mem_map.1 hnl
  rw [List.mem_range] at hi
  exact wrStrFrom_hangs (Nat.le_add_right str i) (by omega) heq str p

/-! ## Every state -/

theorem Rtt.Agrees.putCall (h : p.Agrees) {c : PutCall} (hc : putCall p c = some p') :
    p'.Agrees := by
  have hstr : ∀ {m : ℕ → Byte} {str : ℕ} {len : Word} {block : Bool},
      wrStr m str len (Debug.setMode block p) = some p' → p'.Agrees := by
    intro m str len block hc
    by_cases hnl : ch '\n' ∈ Stores.block m str len.toNat
    · rw [wrStr_hangs hnl] at hc
      cases hc
    · rw [wrStr_whole hnl] at hc
      exact Option.some.inj hc ▸ (h.setMode block).write _
  cases c with
  | char chr => exact Option.some.inj hc ▸ (h.setMode false).wrChr chr
  | charBlocked chr => exact Option.some.inj hc ▸ (h.setMode true).wrChr chr
  | string m str len => exact hstr hc
  | stringBlocked m str len => exact hstr hc

/-- **Strings are written when they have no newline.** After any calls, each
of the two functions returns with the text passed on, in blocking mode if that
is asked for, just when the string has no newline. -/
theorem putString_iff {cs : List PutCall} (h : cs.foldlM putCall {} = some p) (m : ℕ → Byte)
    (str : ℕ) (len : Word) :
    (Passes p (debugPutString m str len p) (crlf (block m str len.toNat)) ↔
      ch '\n' ∉ block m str len.toNat) ∧
    (PassesBlocked p (debugPutStringBlocked m str len p) (crlf (block m str len.toNat)) ↔
      ch '\n' ∉ block m str len.toNat) := by
  have hstart : ({} : Rtt).Agrees := rfl
  have hp : p.Agrees := Runs.inv_foldlM (fun _ _ _ h hc => Rtt.Agrees.putCall h hc) hstart h
  by_cases hnl : ch '\n' ∈ block m str len.toNat
  · unfold Passes PassesBlocked debugPutString debugPutStringBlocked
    rw [wrStr_hangs hnl, wrStr_hangs hnl]
    simp [hnl]
  · rw [crlf_of_notMem hnl, debugPutString, debugPutStringBlocked, wrStr_whole hnl,
      wrStr_whole hnl]
    refine ⟨iff_of_true ⟨_, rfl, ?_⟩ hnl, iff_of_true ⟨_, rfl, ?_⟩ hnl⟩
    · simp [Rtt.write, written_setMode, Function.comp_def]
    · rw [Rtt.write, hp.flags_setMode true, written_setMode]
      rfl

/-- A string of one newline: the call does not return. -/
theorem debugPutString_newline :
    debugPutString (fun _ => ch '\n') 0 1#32 {} = none ∧
      ¬ Passes {} (debugPutString (fun _ => ch '\n') 0 1#32 {}) [ch '\r', ch '\n'] := by
  have hnone : debugPutString (fun _ => ch '\n') 0 1#32 {} = none := wrStr_hangs (by decide) _
  refine ⟨hnone, ?_⟩
  rw [hnone]
  rintro ⟨p', hp', -⟩
  cases hp'

/-- A string of two letters, after a character. -/
theorem putString_two : let p := debugPutCharBlocked (int (ch 'a')) {}
    (Passes p (debugPutString (fun _ => ch 'b') 0 2#32 p) [ch 'b', ch 'b'] ↔
      ch '\n' ∉ [ch 'b', ch 'b']) ∧
    (PassesBlocked p (debugPutStringBlocked (fun _ => ch 'b') 0 2#32 p) [ch 'b', ch 'b'] ↔
      ch '\n' ∉ [ch 'b', ch 'b']) := by
  intro p
  have hrun : [PutCall.charBlocked (int (ch 'a'))].foldlM putCall {} = some p := rfl
  exact putString_iff hrun (fun _ => ch 'b') 0 2#32

end Debug

end AntTracer
