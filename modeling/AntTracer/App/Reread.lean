import AntTracer.App.Saves

/-!
# What reading the store leaves behind

Reading uses the record buffer and the staging area, which writing uses too.
Two stores that differ in these alone go the same way, as long as they agree
on what is in use: the record `wrGo` is at, the copy that is being saved, and
the words of the requests that wait (`Alike`).
-/

namespace AntTracer

namespace App

/-! ## The log -/

/-- The log with another buffer and staging area. -/
def Log.reread (l : Log) (b : Buffer) (st : Staging) (acc : List (List Word)) : Log :=
  { l with buf := b, staging := st, accepted := acc }

/-- A call of `wrGo` on a log that differs in what reading uses. -/
def Follows (st : Staging) (acc : List (List Word)) (r r' : Log × Bool) : Prop :=
  ∃ b, r' = (r.1.reread b st acc, r.2) ∧ (r.2 = true → b.SameRecord r.1.buf)

section Log

variable {l : Log} {b : Buffer} {st : Staging} {acc : List (List Word)}

theorem follows_wrDone (status : Status) :
    Follows st acc (wrDone status l) (wrDone status (l.reread b st acc)) := ⟨_, rfl, nofun⟩

theorem follows_flashWrite (h : b.SameRecord l.buf) (ptr : ℕ) :
    Follows st acc (flashWrite ptr .buffer (l.buf.bufferIndex + 1) l, true)
      (flashWrite ptr .buffer (b.bufferIndex + 1) (l.reread b st acc), true) :=
  ⟨b, by rw [h.1]; rfl, fun _ => h⟩

theorem follows_wrWrite (h : b.SameRecord l.buf) (ptr cnt : ℕ) :
    Follows st acc (wrWrite ptr cnt l) (wrWrite ptr cnt (l.reread b st acc)) := by
  have hflash : (l.reread b st acc).flash = l.flash := rfl
  have hsame : (l.reread b st acc).needSeq = l.needSeq := rfl
  unfold wrWrite
  rw [hflash]
  by_cases hw : l.flash ptr ≠ erasedWord
  · rw [if_pos hw, if_pos hw]
    exact @follows_wrDone { l with currentWrite := ptr + cnt } b st acc .completed
  · rw [if_neg hw, if_neg hw]
    dsimp only
    rw [hsame]
    by_cases hneed : l.needSeq = true
    · obtain ⟨hrec, hnum⟩ := h.wrSeq l.sequence
      have hseq : wrSequence (l.reread b st acc) =
          (wrSequence l).reread (wrSeq l.sequence b).1 st acc := by
        unfold wrSequence Log.reread
        dsimp only
        rw [hnum]
      rw [if_pos hneed, if_pos hneed, hseq]
      exact @follows_flashWrite
        { wrSequence l with records := noteStart ptr (wrSequence l).records } _ st acc hrec ptr
    · rw [if_neg hneed, if_neg hneed]
      exact @follows_flashWrite { l with records := noteStart ptr l.records } b st acc h ptr

theorem follows_wrErase (h : b.SameRecord l.buf) (ptr pe remain cnt : ℕ) :
    Follows st acc (wrErase ptr pe remain cnt l)
      (wrErase ptr pe remain cnt (l.reread b st acc)) := by
  have hflash : (l.reread b st acc).flash = l.flash := rfl
  unfold wrErase
  dsimp only
  rw [hflash]
  generalize (if pe ≥ storeEnd then storeStart else pe) = next
  split_ifs
  · exact ⟨b, rfl, fun _ => h⟩
  · exact @follows_wrWrite { l with currentWrite := next, needSeq := true, wrState := .write1 } b st
      acc
      h next cnt
  · exact @follows_wrWrite { l with needSeq := true, wrState := .write1 } b st acc h ptr cnt
  · exact @follows_wrWrite { l with wrState := .write1 } b st acc h ptr cnt

/-- **`wrGo`** looks at nothing but the record in the buffer. -/
theorem follows_wrGo (h : b.SameRecord l.buf) : Follows st acc (wrGo l)
    (wrGo (l.reread b st acc)) := by
  have hindex : (l.reread b st acc).buf.bufferIndex = l.buf.bufferIndex := h.1
  have hwrite : (l.reread b st acc).currentWrite = l.currentWrite := rfl
  have hstate : (l.reread b st acc).wrState = l.wrState := rfl
  unfold wrGo
  dsimp only
  rw [hindex, hwrite, hstate]
  cases l.wrState with
  | idle =>
    dsimp only
    split
    · exact ⟨b, rfl, nofun⟩
    · exact @follows_wrErase { l with wrState := .erase1 } b st acc h _ _ _ _
  | erase1 => exact @follows_wrErase { l with wrState := .erase2 } b st acc h _ _ _ _
  | erase2 => exact @follows_wrErase { l with wrState := .erase3 } b st acc h _ _ _ _
  | write1 => exact @follows_wrWrite { l with wrState := .write2 } b st acc h _ _
  | write2 => exact @follows_wrWrite { l with wrState := .write3 } b st acc h _ _
  | erase3 => exact follows_wrDone .failed
  | write3 => exact follows_wrDone .failed

/-- A record handed over, whatever the buffer held. -/
theorem follows_append (ty : Word) (fs : List (ℕ × Word)) :
    Follows st acc (appendRecord ty fs l) (appendRecord ty fs (l.reread b st acc)) := by
  have hrec : (wrFields fs (wrNew ty b)).SameRecord (wrFields fs (wrNew ty l.buf)) :=
    Buffer.SameRecord.wrFields fs ⟨rfl, rfl, fun k hk => by
      obtain rfl : k = 0 := Nat.le_zero.1 hk
      simp [wrNew]⟩
  have hwords : (wrFields fs (wrNew ty b)).words = (wrFields fs (wrNew ty l.buf)).words :=
    recordWords_congr ty fs b l.buf
  unfold appendRecord
  dsimp only
  have hlog : { l.reread b st acc with
      buf := wrFields fs (wrNew ty (l.reread b st acc).buf)
      records := (l.reread b st acc).records ++
        [⟨(wrFields fs (wrNew ty (l.reread b st acc).buf)).words, none, .writing, false⟩] } =
      Log.reread { l with
        buf := wrFields fs (wrNew ty l.buf)
        records := l.records ++ [⟨(wrFields fs (wrNew ty l.buf)).words, none, .writing, false⟩] }
        (wrFields fs (wrNew ty b)) st acc := by
    unfold Log.reread
    dsimp only
    rw [hwords]
  rw [hlog]
  exact follows_wrGo hrec

/-- What `wrGo` writes is the record in the buffer. -/
def FromBuffer (r : Log × Bool) : Prop :=
  r.2 = true → r.1.flashWriteOp = true →
    r.1.flashSource = .buffer ∧ r.1.flashCount = r.1.buf.bufferIndex + 1

theorem fromBuffer_wrWrite (ptr cnt : ℕ) : FromBuffer (wrWrite ptr cnt l) := by
  unfold wrWrite
  split
  · exact nofun
  · exact fun _ _ => ⟨rfl, rfl⟩

theorem fromBuffer_wrErase (ptr pe remain cnt : ℕ) : FromBuffer (wrErase ptr pe remain cnt l) := by
  unfold wrErase
  dsimp only
  generalize (if pe ≥ storeEnd then storeStart else pe) = next
  split_ifs
  · exact nofun
  · exact fromBuffer_wrWrite _ _
  · exact fromBuffer_wrWrite _ _
  · exact fromBuffer_wrWrite _ _

theorem fromBuffer_wrGo : FromBuffer (wrGo l) := by
  unfold wrGo
  dsimp only
  split
  · split
    · exact nofun
    · exact fromBuffer_wrErase _ _ _ _
  · exact fromBuffer_wrErase _ _ _ _
  · exact fromBuffer_wrErase _ _ _ _
  · exact fromBuffer_wrWrite _ _
  · exact fromBuffer_wrWrite _ _
  · exact nofun
  · exact nofun

/-! ## The soft device -/

/-- Words that are the same are programmed alike. -/
theorem reread_program (dst : ℕ) {f g : ℕ → Word} (is : List ℕ) (h : ∀ i ∈ is, g i = f i) :
    ∀ t : Log, is.foldl (fun t i => programWord (dst + i) (g i) t) (t.reread b st acc) =
      (is.foldl (fun t i => programWord (dst + i) (f i) t) t).reread b st acc := by
  induction is with
  | nil => exact fun _ => rfl
  | cons i is ih =>
    intro t
    rw [List.foldl_cons, List.foldl_cons, h i (List.mem_cons_self ..)]
    exact ih (fun j hj => h j (List.mem_cons_of_mem _ hj)) (programWord (dst + i) (f i) t)

/-- The words to be written are the same. -/
def SameWords (l l' : Log) : Prop :=
  l.flashWriteOp = true → ∀ i < l.flashCount, l'.ram l.flashSource i = l.ram l.flashSource i

theorem reread_flashWriteRaw (h : SameWords l (l.reread b st acc)) (hop : l.flashWriteOp = true) :
    flashWriteRaw l.flashAddress l.flashSource l.flashCount (l.reread b st acc) =
      (flashWriteRaw l.flashAddress l.flashSource l.flashCount l).reread b st acc := by
  have hram := h hop
  have hprogram := @reread_program b st acc l.flashAddress _ _ (List.range l.flashCount)
    (fun i hi => hram i (List.mem_range.1 hi)) l
  have hmap : (List.range l.flashCount).map ((l.reread b st acc).ram l.flashSource) =
      (List.range l.flashCount).map (l.ram l.flashSource) :=
    List.map_congr_left fun i hi => hram i (List.mem_range.1 hi)
  unfold flashWriteRaw
  rw [hprogram, hmap]
  rfl

theorem reread_storeFlashed (ok : Bool) (h : SameWords l (l.reread b st acc)) :
    storeFlashed ok (l.reread b st acc) = (storeFlashed ok l).reread b st acc := by
  have hcomplete : ∀ {l₁ l₂ : Log}, l₂ = l₁.reread b st acc →
      { l₂ with flashComplete := true } = Log.reread { l₁ with flashComplete := true } b st acc :=
    fun heq => by rw [heq]; rfl
  unfold storeFlashed
  split
  · rfl
  change (if l.flashComplete = true then _ else if l.flashTries > 0 then _ else _) = _
  split
  · rfl
  rcases l with ⟨flash, sd, fc, write, erase, tries, addr, src, cnt, buf, st', cw, q, w, n, rs,
    wr, adv, ac, ref⟩
  split
  · cases erase <;> cases write <;> rfl
  · -- out of tries, it writes by itself
    cases write with
    | false => cases erase <;> rfl
    | true =>
      cases erase with
      | false => exact hcomplete (reread_flashWriteRaw h rfl)
      | true =>
        refine hcomplete (@reread_flashWriteRaw (erasePage (addr / pageWords)
          ⟨flash, sd, fc, true, true, tries, addr, src, cnt, buf, st', cw, q, w, n, rs,
            wr, adv, ac, ref⟩)
          b st acc ?_ rfl)
        cases src <;> exact h

/-- **An event of the soft device.** -/
theorem reread_sdEvent (hw : l.sd ≠ none → Waiting l)
    (hsrc : l.sd ≠ none → SameWords l (l.reread b st acc))
    (e : SdEvent) : sdEvent (l.reread b st acc) e = (sdEvent l e).reread b st acc := by
  by_cases hnone : l.sd = none
  · rw [sdEvent_of_none hnone, sdEvent_of_none (by exact hnone)]
  have hsd' : (l.reread b st acc).sd = l.sd := rfl
  cases e with
  | work =>
    rw [sdEvent, sdEvent, sdStep, sdStep, hsd']
    cases hw hnone with
    | @erasing page done op =>
      rw [op.sd]
      cases done <;> rfl
    | @writing dst src W j op =>
      have hram := hsrc hnone op.writeOp
      rw [op.source, op.count] at hram
      rw [op.sd]
      dsimp only
      split
      · rename_i hlt
        rw [hram _ hlt]
        rfl
      · rfl
    | answered sd => exact absurd sd hnone
  | success =>
    rw [sdEvent, sdEvent, sdSuccess, sdSuccess, hsd']
    split
    · rfl
    · split
      · rfl
      · rfl
    · rfl
  | error =>
    rw [sdEvent, sdEvent, sdError, sdError, hsd']
    split
    · exact @reread_storeFlashed { l with sd := none } b st acc false (hsrc hnone)
    · rfl

end Log

/-! ## What is read -/

/-- What a fold keeps of the elements that say something: the last. -/
theorem foldl_getLast {α β γ : Type*} {step : β → α → β} {g : β → γ} {f : α → Option γ}
    (h : ∀ b a, g (step b a) = (f a).getD (g b)) (xs : List α) :
    ∀ b, g (xs.foldl step b) = (xs.filterMap f).getLast?.getD (g b) := by
  induction xs with
  | nil => exact fun _ => rfl
  | cons x xs ih =>
    intro b
    rw [List.foldl_cons, ih, h, List.filterMap_cons]
    cases f x with
    | none => rfl
    | some c => rw [List.getLast?_cons]; rfl

/-- The words of the union a part takes up. -/
def Part.size : Part → ℕ
  | .hdr => 4
  | .data => 18
  | .exec => 2

/-- What a part stores depends on its words alone. -/
theorem Part.fields_congr (p : Part) {u u' : Union}
    (h : ∀ k : Fin 18, k.val < p.size → u.words k = u'.words k) : p.fields u = p.fields u' := by
  cases p with
  | hdr =>
    have hsui : u.sui = u'.sui := by
      unfold Union.sui
      rw [h 0 (by decide), h 1 (by decide), h 2 (by decide), h 3 (by decide)]
    exact congrArg suInfoFields hsui
  | data =>
    have hwords : u.words = u'.words := funext fun k => h k k.isLt
    have hsud : u.sud = u'.sud := by
      unfold Union.sud
      rw [hwords]
    exact congrArg suDataFields hsud
  | exec =>
    have hsux : u.sux = u'.sux := by
      unfold Union.sux
      rw [h 0 (by decide), h 1 (by decide)]
    exact congrArg suExecFields hsux

/-- The configuration `importRecord` takes from a record. -/
def configRead (l : List Word) : Option Config :=
  if typeOf l = rtConfig then some (rdConfig (bufferOf l)).1 else none

/-- What it puts into a word of the union. -/
def wordRead (k : Fin 18) (l : List Word) : Option Word :=
  if typeOf l = rtSuHdr then
    if k.val < Part.hdr.size then some ((Staging.init.su.setSui (rdSuInfo (bufferOf l)).1).words k)
    else none
  else if typeOf l = rtSuData then
    some ((Staging.init.su.setSud (rdSuData (bufferOf l)).1).words k)
  else if typeOf l = rtSuExec then
    if k.val < Part.exec.size then some ((Staging.init.su.setSux (rdSuExec (bufferOf l)).1).words k)
    else none
  else none

theorem deliver_config (l : List Word) (s : Log) :
    (deliver l s).staging.config = (configRead l).getD s.staging.config := by
  unfold deliver importFields configRead
  dsimp only
  split
  · rename_i hty
    rw [if_neg (by rw [hty]; decide)]
    rfl
  split
  · rfl
  · split_ifs <;> rfl

theorem Union.setSui_words (u : Union) (i : SuInfo) (k : Fin 18) : (u.setSui i).words k =
    if k.val < Part.hdr.size then (Staging.init.su.setSui i).words k else u.words k := by
  fin_cases k <;> rfl

theorem Union.setSux_words (u : Union) (x : SuExec) (k : Fin 18) : (u.setSux x).words k =
    if k.val < Part.exec.size then (Staging.init.su.setSux x).words k else u.words k := by
  fin_cases k <;> rfl

theorem deliver_su (k : Fin 18) (l : List Word) (s : Log) :
    (deliver l s).staging.su.words k = (wordRead k l).getD (s.staging.su.words k) := by
  have hhdr : rtSuHdr ≠ rtSequence ∧ rtSuHdr ≠ rtConfig := by decide
  have hdata : rtSuData ≠ rtSequence ∧ rtSuData ≠ rtConfig ∧ rtSuData ≠ rtSuHdr := by decide
  have hexec : rtSuExec ≠ rtSequence ∧ rtSuExec ≠ rtConfig ∧ rtSuExec ≠ rtSuHdr ∧
      rtSuExec ≠ rtSuData := by decide
  unfold deliver importFields wordRead
  dsimp only
  by_cases h₁ : typeOf l = rtSuHdr
  · rw [if_pos h₁, h₁, if_neg hhdr.1, if_neg hhdr.2, if_pos rfl]
    dsimp only
    rw [Union.setSui_words]
    split <;> rfl
  rw [if_neg h₁]
  by_cases h₂ : typeOf l = rtSuData
  · rw [if_pos h₂, h₂, if_neg hdata.1, if_neg hdata.2.1, if_neg hdata.2.2, if_pos rfl]
    rfl
  rw [if_neg h₂]
  by_cases h₃ : typeOf l = rtSuExec
  · rw [if_pos h₃, h₃, if_neg hexec.1, if_neg hexec.2.1, if_neg hexec.2.2.1, if_neg hexec.2.2.2,
      if_pos rfl]
    dsimp only
    rw [Union.setSux_words]
    split <;> rfl
  rw [if_neg h₃]
  split_ifs <;> rfl

/-- The staging area after all these records. -/
theorem deliverAll_config (ls : List (List Word)) (s : Log) :
    (deliverAll deliver ls s).staging.config =
      (ls.filterMap configRead).getLast?.getD s.staging.config :=
  foldl_getLast (g := fun s : Log => s.staging.config) (fun s l => deliver_config l s) ls s

theorem deliverAll_su (k : Fin 18) (ls : List (List Word)) (s : Log) :
    (deliverAll deliver ls s).staging.su.words k =
      (ls.filterMap (wordRead k)).getLast?.getD (s.staging.su.words k) :=
  foldl_getLast (g := fun s : Log => s.staging.su.words k) (fun s l => deliver_su k l s) ls s

/-- `store list` does nothing else to the store. -/
theorem deliverAll_list (ls : List (List Word)) : ∀ s : Store,
    deliverAll (Store.deliver false) ls s = { s with log := deliverAll deliver ls s.log } := by
  induction ls with
  | nil => exact fun _ => rfl
  | cons l ls ih => exact fun s => ih (Store.deliver false l s)

theorem storeList_eq (s : Store) : ∃ b, storeList s =
    { s with log := { deliverAll deliver (rawRecords storeRegion
    s.log.flash) s.log with buf := b } } := by
  obtain ⟨-, b, hb⟩ := storeRead_deliverAll false s
  exact ⟨b, by rw [storeList, hb, deliverAll_list]; rfl⟩

/-- Without a newest page nothing is read. -/
theorem storeList_of_newp {s : Store} (h : (findBounds storeRegion s.log.flash).newp = 0) :
    storeList s = s := by
  have hword : (storeReader false).word s = s.log.flash := rfl
  rw [storeList, readFlash]
  simp only [hword, h, ne_eq, not_true_eq_false, if_false]

/-! ## Stores that differ in what reading uses -/

/-- The store with another buffer and staging area. -/
def Store.reread (s : Store) (b : Buffer) (st : Staging) (acc : List (List Word))
    (u : Union) : Store :=
  { s with log := s.log.reread b st acc, asked := u }

/-- **What waits survives a read**: where the log has a word for it, the last
one is the same. -/
def Parked (s : Store) : Prop :=
  ∀ p : Part, p.flag s.opFlag = true → ∀ k : Fin 18, k.val < p.size →
    ∀ w ∈ ((rawRecords storeRegion s.log.flash).filterMap (wordRead k)).getLast?,
      w = s.log.staging.su.words k

/-- **The stores agree on what is in use.** -/
structure Alike (s s' : Store) : Prop where
  flow : Flow s
  same : ∃ b st acc u, s' = s.reread b st acc u
  /-- the record `wrGo` is at -/
  buffer : s.state = .writing → s'.log.buf.SameRecord s.log.buf
  /-- the copy that is still to be written -/
  copy : s.state = .config1 ∨ s.state = .config2 ∨ (s.state = .writing ∧ s.savedState = .config1) →
    s'.log.staging.config = s.log.staging.config
  /-- what the soft device writes -/
  words : s.log.sd ≠ none → SameWords s.log s'.log
  /-- the requests that wait, as they were made -/
  parked : ∀ p : Part, p.flag s.opFlag = true → ∀ k : Fin 18, k.val < p.size →
    s'.log.staging.su.words k = s.log.staging.su.words k ∧
      s'.asked.words k = s.log.staging.su.words k ∧ s.asked.words k = s.log.staging.su.words k
  erasing : s.state = .config2 → s.log.flashWriteOp = false
  slot : s.state = .config3 → s.log.flashSource = .config
  /-- what was handed to `wrGo` is what was asked for -/
  asked : s.log.words = s.wanted

section Alike

variable {s s' : Store}

/-- In a state that uses nothing, only the requests are to agree. -/
theorem alike_free (hflow : Flow s) (hs : s.state = .init0 ∨ s.state = .idle) {b : Buffer}
    {st : Staging}
    {acc : List (List Word)} {u : Union}
    (hparked : ∀ p : Part, p.flag s.opFlag = true → ∀ k : Fin 18, k.val < p.size →
      st.su.words k = s.log.staging.su.words k ∧ u.words k = s.log.staging.su.words k ∧
        s.asked.words k = s.log.staging.su.words k) (hasked : s.log.words = s.wanted) :
    Alike s (s.reread b st acc u) := by
  have hsd : s.log.sd = none := hflow.free (hs.imp id Or.inl)
  refine ⟨hflow, ⟨_, _, _, _, rfl⟩, fun h => ?_, fun h => ?_, fun h => absurd hsd h,
    hparked, fun h => ?_, fun h => ?_, hasked⟩
  · rcases hs with hs | hs <;> rw [hs] at h <;> cases h
  · rcases hs with hs | hs <;> rw [hs] at h <;> simp at h
  · rcases hs with hs | hs <;> rw [hs] at h <;> cases h
  · rcases hs with hs | hs <;> rw [hs] at h <;> cases h

/-- **A record handed to `wrGo`.** -/
theorem alike_handed {r r' : Log × Bool} {b : Buffer} {st : Staging} {acc : List (List Word)}
    {u : Union} {l : Log}
    (hflow : Flow (handed r s)) (hr : Handed l r) (hbuf : FromBuffer r) (hf : Follows st acc r r')
    (hsaved : s.savedState = .idle ∨ s.savedState = .config1)
    (hcopy : s.savedState = .config1 → st.config = r.1.staging.config)
    (hparked : ∀ p : Part, p.flag s.opFlag = true → ∀ k : Fin 18, k.val < p.size →
      st.su.words k = r.1.staging.su.words k ∧ u.words k = r.1.staging.su.words k ∧
        s.asked.words k = r.1.staging.su.words k)
    (hasked : r.1.words = s.wanted) : Alike (handed r s) (handed r' (s.reread b st acc u)) := by
  obtain ⟨b', rfl, hrec⟩ := hf
  have hwaits := not_waits_handed (r := r) hsaved
  refine ⟨hflow, ⟨b', st, acc, u, rfl⟩, fun hs => hrec ?_, fun hs =>
    hcopy ?_, fun hsd hop i hi => ?_,
    hparked, fun hs => absurd (Or.inr (Or.inl hs)) hwaits, fun hs =>
      absurd (Or.inr (Or.inr hs)) hwaits, hasked⟩
  · -- a record that is written is in the buffer
    by_contra hr2
    have hstate : (handed r s).state = s.savedState := if_neg hr2
    rw [hstate] at hs
    rcases hsaved with h | h <;> rw [h] at hs <;> cases hs
  · rcases hs with hs | hs | ⟨-, hs⟩
    · by_cases hr2 : r.2 = true
      · have hstate : (handed r s).state = .writing := if_pos hr2
        rw [hstate] at hs
        cases hs
      · have hstate : (handed r s).state = s.savedState := if_neg hr2
        exact hstate.symm.trans hs
    · exact absurd (Or.inr (Or.inl hs)) hwaits
    · exact hs
  · obtain ⟨hr2, -⟩ := hr.2.resolve_right fun h => hsd h.2
    obtain ⟨hsrc, hcnt⟩ := hbuf hr2 hop
    have hsrc' : (handed r s).log.flashSource = .buffer := hsrc
    have hcnt' : (handed r s).log.flashCount = r.1.buf.bufferIndex + 1 := hcnt
    rw [hcnt'] at hi
    rw [hsrc']
    have hsame := hrec hr2
    exact hsame.2.2 i (by rw [hsame.1]; omega)

/-- The handler looks at nothing that differs. -/
theorem callbacks_reread (cs : List Config) (b : Buffer) (st : Staging) (acc : List (List Word))
    (u : Union) :
    ∀ s : Store, callbacks cs (s.reread b st acc u) = (callbacks cs s).reread b st acc u := by
  induction cs with
  | nil => exact fun _ => rfl
  | cons c cs ih =>
    intro s
    have hstep : storeCallbackConfiguration c (s.reread b st acc u) =
        (storeCallbackConfiguration c s).reread b st acc u := by
      unfold storeCallbackConfiguration
      change (if s.config.confSequence < c.confSequence ∧ c.confCRC = configCRC c then _ else _) = _
      split <;> rfl
    rw [callbacks, List.foldl_cons, ← callbacks, hstep, ih]
    rfl

/-- What waits is there after the read. -/
theorem Parked.deliverAll (h : Parked s) {p : Part} (hp : p.flag s.opFlag = true) {k : Fin 18}
    (hk : k.val < p.size) :
    (AntTracer.deliverAll deliver (rawRecords storeRegion s.log.flash) s.log).staging.su.words k =
      s.log.staging.su.words k := by
  rw [deliverAll_su]
  cases hlast : ((rawRecords storeRegion s.log.flash).filterMap (wordRead k)).getLast? with
  | none => rfl
  | some w => exact h p hp k hk w hlast

/-- What `INIT0` makes of the store. -/
theorem init0_staging (s : Store) :
    (init0 s).log.staging = (deliverAll deliver (rawRecords storeRegion s.log.flash)
    s.log).staging ∧
      (init0 s).asked = s.asked ∧ (init0 s).wanted = s.wanted ∧
      ∀ p : Part, p.flag (init0 s).opFlag = p.flag s.opFlag := by
  obtain ⟨b, hinit⟩ := init0_eq s
  obtain ⟨timer, flag, saving, requests, hback⟩ :=
    callbacks_eq (configsIn (rawRecords storeRegion s.log.flash)) s
  rw [hinit, hback, setUpWrite]
  refine ⟨?_, rfl, rfl, fun p => by cases p <;> rfl⟩
  split <;> rfl

theorem init0_reread (s : Store) (b : Buffer) (st : Staging) (acc : List (List Word)) (u : Union) :
    ∃ b' acc', init0 (s.reread b st acc u) = (init0 s).reread b'
      (deliverAll deliver (rawRecords storeRegion s.log.flash) (s.log.reread b st acc)).staging
        acc' u := by
  obtain ⟨b₁, hinit⟩ := init0_eq s
  obtain ⟨b₂, hinit'⟩ := init0_eq (s.reread b st acc u)
  obtain ⟨st₁, hst₁⟩ := deliverAll_eq (rawRecords storeRegion s.log.flash) s.log
  obtain ⟨st₂, hst₂⟩ := deliverAll_eq (rawRecords storeRegion s.log.flash) (s.log.reread b st acc)
  have hflash : (s.reread b st acc u).log.flash = s.log.flash := rfl
  have hlog : (s.reread b st acc u).log = s.log.reread b st acc := rfl
  have hpointer : (readFlash logReader storeRegion (s.log.reread b st acc)).2 =
      (readFlash logReader storeRegion s.log).2 := by
    rw [readFlash_fst, readFlash_fst]
    rfl
  refine ⟨b₂, acc ++ (rawRecords storeRegion s.log.flash).filter Accepts, ?_⟩
  rw [hinit', hinit, hflash, hlog, hpointer, callbacks_reread, hst₁, hst₂, setUpWrite, setUpWrite]
  split <;> rfl

/-- **The state `INIT0`**, if the read leaves what waits alone. -/
theorem Alike.init0 (h : Alike s s') (hs : s.state = .init0) (hp : Parked s') :
    Alike (App.init0 s) (App.init0 s') := by
  have hflow := (h.flow.round (.init0 hs)).2
  have hpark := h.parked
  obtain ⟨b, st, acc, u, rfl⟩ := h.same
  obtain ⟨b', acc', hinit⟩ := init0_reread s b st acc u
  obtain ⟨hstaging, hasked, hwanted, hflags⟩ := init0_staging s
  rw [hinit]
  refine alike_free hflow (Or.inr rfl) (fun p hflag k hk => ?_) ?_
  · rw [hflags] at hflag
    obtain ⟨h₁, h₂, h₃⟩ := hpark p hflag k hk
    -- the same request waits in both
    have hp' : Parked s := fun q hq j hj w hw => (hp q hq j hj w hw).trans (hpark q hq j hj).1
    rw [hstaging, hasked, hp'.deliverAll hflag hk]
    exact ⟨(Parked.deliverAll hp hflag hk).trans h₁, h₂, h₃⟩
  · rw [hwanted, (init0_history s).2.2.2]
    exact h.asked

/-! ### Rounds -/

/-- **A copy is written to a slot.** -/
theorem Alike.writeSlot {b : Buffer} {st : Staging} {acc : List (List Word)} {u : Union} {i : ℕ}
    (hflow : Flow (App.writeSlot i s)) (hcopy : st.config = s.log.staging.config)
    (hparked : ∀ p : Part, p.flag s.opFlag = true → ∀ k : Fin 18, k.val < p.size →
      st.su.words k = s.log.staging.su.words k ∧ u.words k = s.log.staging.su.words k ∧
        s.asked.words k = s.log.staging.su.words k) (hasked : s.log.words = s.wanted) :
    Alike (App.writeSlot i s) (App.writeSlot i (s.reread b st acc u)) := by
  refine ⟨hflow, ⟨b, st, acc, u, rfl⟩, nofun, fun hs => ?_, fun _ _ i _ => ?_, hparked, nofun,
    fun _ => rfl, hasked⟩
  · rcases hs with hs | hs | ⟨hs, -⟩ <;> cases hs
  · exact congrArg (fun c : Config => c.words.getD i 0#32) hcopy

/-- **A record is handed to `wrGo`.** -/
theorem alike_append {b : Buffer} {st : Staging} {acc : List (List Word)} {u : Union} (ty : Word)
    (fs : List (ℕ × Word)) (hflow : Flow (handed (appendRecord ty fs s.log) s))
    (hsd : s.log.sd = none)
    (hsaved : s.savedState = .idle ∨ s.savedState = .config1)
    (hcopy : s.savedState = .config1 → st.config = s.log.staging.config)
    (hparked : ∀ p : Part, p.flag s.opFlag = true → ∀ k : Fin 18, k.val < p.size →
      st.su.words k = s.log.staging.su.words k ∧ u.words k = s.log.staging.su.words k ∧
        s.asked.words k = s.log.staging.su.words k)
    (hasked : s.log.words ++ [recordWords ty fs s.log.buf] = s.wanted) :
    (appendRecord ty fs (s.log.reread b st acc)).2 = (appendRecord ty fs s.log).2 ∧
      Alike (handed (appendRecord ty fs s.log) s)
        (handed (appendRecord ty fs (s.log.reread b st acc)) (s.reread b st acc u)) := by
  obtain ⟨-, hstaging, -, hwords⟩ := appendRecord_kept ty fs s.log
  have hr := handed_append hsd ty fs
  have hf := @follows_append s.log b st acc ty fs
  refine ⟨?_, alike_handed hflow hr fromBuffer_wrGo hf hsaved ?_ ?_ (hwords.trans hasked)⟩
  · obtain ⟨b', hb', -⟩ := hf
    rw [hb']
  · rw [hstaging]
    exact hcopy
  · rw [hstaging]
    exact hparked

theorem Alike.state_eq (h : Alike s s') : s'.state = s.state := by
  obtain ⟨b, st, acc, u, rfl⟩ := h.same
  rfl

theorem Alike.opFlag_eq (h : Alike s s') : s'.opFlag = s.opFlag := by
  obtain ⟨b, st, acc, u, rfl⟩ := h.same
  rfl

theorem Alike.flashComplete_eq (h : Alike s s') :
    s'.log.flashComplete = s.log.flashComplete := by
  obtain ⟨b, st, acc, u, rfl⟩ := h.same
  rfl

theorem Alike.timeout_iff (h : Alike s s') : timeout s' ↔ timeout s := by
  obtain ⟨b, st, acc, u, rfl⟩ := h.same
  exact Iff.rfl

/-- **A pass that goes on.** -/
theorem alike_doWrite {again again' : Store → Store × Bool} {r r' : Log × Bool}
    (hagain : ∀ s s', Alike s s' → (s'.state = .init0 → Parked s') →
    Alike (again s).1 (again' s').1)
    (hsaved : s.savedState = .idle ∨ s.savedState = .config1)
    (hr : r'.2 = r.2 ∧ Alike (handed r s) (handed r' s')) :
    Alike (doWrite again r s).1 (doWrite again' r' s').1 := by
  obtain ⟨heq, halike⟩ := hr
  unfold doWrite
  rw [heq]
  split
  · exact halike
  · refine hagain _ _ halike fun hs => ?_
    rw [halike.state_eq] at hs
    exact absurd (Or.inl hs) (not_waits_handed hsaved)

/-- The store when the copy goes to the log. -/
def copyLogged (s : Store) : Store :=
  { copyConfig (takeConfig s) with
    savedState := .config1
    wanted := s.wanted ++ [recordWords rtConfig
      (configFields (copyConfig (takeConfig s)).log.staging.config) s.log.buf] }

theorem copyLogged_reread (s : Store) (b : Buffer) (st : Staging) (acc : List (List Word))
    (u : Union) :
    copyLogged (s.reread b st acc u) = (copyLogged s).reread b
      { st with config := (copyConfig (takeConfig s)).log.staging.config } acc u := by
  -- the record does not depend on what the buffer held
  have hrec := recordWords_congr rtConfig
    (configFields (copyConfig (takeConfig s)).log.staging.config) b s.log.buf
  refine Eq.trans ?_ (congrArg (fun ws => Store.reread { copyConfig (takeConfig s) with
    savedState := .config1, wanted := s.wanted ++ [ws] } b
    { st with config := (copyConfig (takeConfig s)).log.staging.config } acc u) hrec)
  rfl

/-- The store when a part goes to the log. -/
def partLogged (p : Part) (st : State) (s : Store) : Store :=
  { s with
    opFlag := p.clear s.opFlag
    state := st
    savedState := .idle
    wanted := s.wanted ++ [recordWords p.type (p.fields s.asked) s.log.buf] }

section Pass

variable {again again' : Store → Store × Bool}

theorem Alike.config0 (hagain : ∀ s s', Alike s s' → (s'.state = .init0 → Parked s') →
    Alike (again s).1 (again' s').1) (h : Alike s s') (hs : s.state = .idle)
    (hflag : s.opFlag.config = true ∧ timeout s) :
    Alike (App.config0 again (takeConfig s)).1 (App.config0 again' (takeConfig s')).1 := by
  have hparked := h.parked
  have hasked := h.asked
  have hflow := h.flow
  obtain ⟨b, st, acc, u, rfl⟩ := h.same
  rw [App.config0, App.config0]
  have hfree : freeSlot (copyConfig (takeConfig (s.reread b st acc u))).log.flash =
      freeSlot (copyConfig (takeConfig s)).log.flash := rfl
  have hparked' : ∀ p : Part, p.flag (takeConfig s).opFlag = true → ∀ k : Fin 18, k.val < p.size →
      st.su.words k = s.log.staging.su.words k ∧ u.words k = s.log.staging.su.words k ∧
        s.asked.words k = s.log.staging.su.words k := fun p hp =>
          hparked p (by cases p <;> exact hp)
  dsimp only
  rw [hfree]
  cases hi : freeSlot (copyConfig (takeConfig s)).log.flash with
  | some i =>
    have hflow' := (hflow.round (.slot hs hflag hi)).2
    exact @Alike.writeSlot (copyConfig (takeConfig s)) b _ acc u i hflow' rfl hparked' hasked
  | none =>
    have hround := Round.full hs hflag hi
    have hsd : (copyLogged s).log.sd = none := hflow.round_free hround
    have happend := @alike_append (copyLogged s) b
      { st with config := (copyConfig (takeConfig s)).log.staging.config } acc u rtConfig
      (configFields (copyConfig (takeConfig s)).log.staging.config)
        (hflow.round hround).2 hsd (Or.inr rfl)
      (fun _ => rfl) hparked' (congrArg (· ++ _) hasked)
    rw [← copyLogged_reread] at happend
    exact alike_doWrite hagain (Or.inr rfl) happend

/-- **A part of a software update is written to the log.** -/
theorem Alike.storePart (hagain : ∀ s s', Alike s s' → (s'.state = .init0 → Parked s') →
    Alike (again s).1 (again' s').1) (h : Alike s s') (hs : s.state = .idle) (p : Part) (st : State)
    (hflag : p.flag s.opFlag = true) :
    Alike (App.storePart p again { s with opFlag := p.clear s.opFlag, state := st }).1
      (App.storePart p again' { s' with opFlag := p.clear s.opFlag, state := st }).1 := by
  have hparked := h.parked
  have hasked := h.asked
  have hflow := h.flow
  obtain ⟨b, st', acc, u, rfl⟩ := h.same
  have hround := Round.part p st hs hflag
  have hsd : (partLogged p st s).log.sd = none := hflow.round_free hround
  -- the requests agree, and with them the records
  have hfields : p.fields st'.su = p.fields s.log.staging.su :=
    p.fields_congr fun k hk => (hparked p hflag k hk).1
  have hwanted : p.fields u = p.fields s.asked :=
    p.fields_congr fun k hk => (hparked p hflag k hk).2.1.trans (hparked p hflag k hk).2.2.symm
  have hwords : p.fields s.log.staging.su = p.fields s.asked :=
    p.fields_congr fun k hk => (hparked p hflag k hk).2.2.symm
  have hstore : partLogged p st (s.reread b st' acc u) =
    (partLogged p st s).reread b st' acc u := by
    have hrec : recordWords p.type (p.fields u) b =
      recordWords p.type (p.fields s.asked) s.log.buf := by
      rw [hwanted, recordWords_congr _ _ b s.log.buf]
    exact congrArg (fun ws => Store.reread { s with
      opFlag := p.clear s.opFlag, state := st, savedState := .idle, wanted := s.wanted ++ [ws] }
      b st' acc u) hrec
  have hparked' : ∀ q : Part, q.flag (p.clear s.opFlag) = true → ∀ k : Fin 18, k.val < q.size →
      st'.su.words k = s.log.staging.su.words k ∧ u.words k = s.log.staging.su.words k ∧
        s.asked.words k = s.log.staging.su.words k := fun q hq => hparked q (by
    cases p <;> cases q <;> first | exact hq | cases hq)
  have happend := @alike_append (partLogged p st s) b st' acc u p.type
    (p.fields s.log.staging.su) (hflow.round hround).2 hsd (Or.inl rfl) nofun hparked' (by
      rw [hwords]
      exact congrArg (· ++ _) hasked)
  rw [← hstore] at happend
  change Alike _ (doWrite again' (appendRecord p.type (p.fields st'.su) (s.log.reread b st' acc))
    (partLogged p st (s.reread b st' acc u))).1
  rw [hfields]
  exact alike_doWrite hagain (Or.inl rfl) happend

/-- **The log is written on.** -/
theorem Alike.go (hagain : ∀ s s', Alike s s' → (s'.state = .init0 → Parked s') →
    Alike (again s).1 (again' s').1) (h : Alike s s') (hs : s.state = .writing)
    (hfc : s.log.flashComplete = true) :
    Alike (doWrite again (wrGo s.log) s).1 (doWrite again' (wrGo s'.log) s').1 := by
  have hround := Round.go hs hfc
  have hsaved := h.flow.resting.savedState hs
  have hflow := (h.flow.round hround).2
  have hgo := handed_wrGo (h.flow.round_free hround)
  have hbuf := h.buffer hs
  have hcopy := h.copy
  have hparked := h.parked
  have hasked := h.asked
  obtain ⟨-, hstaging, -, hwords⟩ := wrGo_kept s.log
  obtain ⟨b, st, acc, u, rfl⟩ := h.same
  have hf := @follows_wrGo s.log b st acc hbuf
  refine alike_doWrite hagain hsaved ⟨?_, alike_handed hflow hgo fromBuffer_wrGo hf hsaved ?_ ?_ ?_⟩
  · obtain ⟨b', hb', -⟩ := hf
    have hsnd := congrArg Prod.snd hb'
    exact hsnd
  · rw [hstaging]
    exact fun hs' => hcopy (Or.inr (Or.inr ⟨hs, hs'⟩))
  · rw [hstaging]
    exact hparked
  · exact hwords.trans hasked

end Pass

/-- **The configuration page is erased.** -/
theorem Alike.erase (h : Alike s s') (hs : s.state = .config1) :
    Alike { s with log := flashErase configStart s.log, state := .config2 }
      { s' with log := flashErase configStart s'.log, state := .config2 } := by
  have hflow := (h.flow.round (.erase hs)).2
  have hcopy := h.copy (Or.inl hs)
  have hparked := h.parked
  have hasked := h.asked
  obtain ⟨b, st, acc, u, rfl⟩ := h.same
  exact ⟨hflow, ⟨b, st, acc, u, rfl⟩, nofun, fun _ => hcopy, fun _ => nofun,
    hparked, fun _ => rfl, nofun, hasked⟩

theorem Alike.rewrite (h : Alike s s') (hs : s.state = .config2)
    (hfc : s.log.flashComplete = true) :
    Alike (App.writeSlot 0 s) (App.writeSlot 0 s') := by
  have hflow := (h.flow.round (.rewrite hs hfc)).2
  have hcopy := h.copy (Or.inr (Or.inl hs))
  have hparked := h.parked
  have hasked := h.asked
  obtain ⟨b, st, acc, u, rfl⟩ := h.same
  exact Alike.writeSlot hflow hcopy hparked hasked

/-- **The save is complete.** -/
theorem Alike.saved (h : Alike s s') (hs : s.state = .config3) (hfc : s.log.flashComplete = true) :
    Alike
      { s with configSaving := false, state := .idle, saved := s.saves.getLast?.map Save.config }
      { s' with configSaving := false, state := .idle, saved := s'.saves.getLast?.map Save.config }
        := by
  have hflow := (h.flow.round (.saved hs hfc)).2
  have hparked := h.parked
  have hasked := h.asked
  obtain ⟨b, st, acc, u, rfl⟩ := h.same
  exact alike_free hflow (Or.inr rfl) hparked hasked

/-- **The rounds of a pass.** -/
theorem Alike.loop (n : ℕ) : ∀ s s' : Store, Alike s s' → (s'.state = .init0 → Parked s') →
    Alike (storeLoop n s).1 (storeLoop n s').1 := by
  induction n with
  | zero => exact fun s s' h _ => h
  | succ n ih =>
    intro s s' h hp
    have hrest := h.flow.resting
    have hparked := h.parked
    rw [storeLoop, storeLoop, h.state_eq]
    rcases hrest.state with hs | hs | hs | hs | hs | hs <;> rw [hs] <;> dsimp only
    · exact h.init0 hs (hp (h.state_eq.trans hs))
    · -- the same flags are set
      have hcond : (s'.opFlag.config = true ∧ timeout s') ↔
          (s.opFlag.config = true ∧ timeout s) := by
        rw [h.opFlag_eq, h.timeout_iff]
      unfold idle
      by_cases hflag : s.opFlag.config = true ∧ timeout s
      · rw [if_pos hflag, if_pos (hcond.2 hflag)]
        exact h.config0 ih hs hflag
      rw [if_neg hflag, if_neg (mt hcond.1 hflag), h.opFlag_eq]
      split
      · rename_i hsu
        exact h.storePart ih hs .hdr .suHdr0 hsu
      split
      · rename_i hsu
        exact h.storePart ih hs .data .suData0 hsu
      split
      · rename_i hsu
        exact h.storePart ih hs .exec .suExec0 hsu
      · exact h
    · rw [h.flashComplete_eq]
      split
      · exact h
      · rename_i hdone
        exact h.go ih hs (not_not.1 hdone)
    · exact h.erase hs
    · rw [h.flashComplete_eq]
      split
      · exact h
      · rename_i hdone
        exact h.rewrite hs (not_not.1 hdone)
    · rw [h.flashComplete_eq]
      split
      · exact h
      · rename_i hdone
        exact h.saved hs (not_not.1 hdone)

end Alike

end App

end AntTracer
