import AntTracer.App.Config
import AntTracer.Library.Runs
import AntTracer.Record.Ring

/-!
# The storage log

The part of `store.c` between the record buffer and the flash: the flash
operations handed to the soft device, `wrGo`, and the reading back in
`importRecord` and `readFlash`. Addresses are `u32` pointers, counted in
words.

The soft device works on an operation in its own time: it erases the page, or
programs the words one after the other, reading them from RAM as it gets to
them, and reports when it is through. A power loss between two of its steps
leaves what was programmed so far.
-/

namespace AntTracer

namespace App

/-! ## Flash -/

/-- `OQ_FLASH_STORE`. -/
abbrev storeStart : ℕ := 64 * pageWords
/-- `OQ_FLASH_STORE_END`. -/
abbrev storeEnd : ℕ := 126 * pageWords
/-- `OQ_FLASH_CONFIG`. -/
abbrev configStart : ℕ := 126 * pageWords
/-- The pages of the store. -/
abbrev storePages : ℕ := 62

/-- The store as a region of words. -/
def storeRegion : Region := ⟨storeStart, storeEnd, 1⟩

theorem storeRegion_paged : storeRegion.Paged storePages :=
    ⟨by decide, by decide, by decide, by decide⟩

/-- What a flash write reads its words from. -/
inductive Source
  /-- `&buffer[0]` -/
  | buffer
  /-- `&staging.config.confArray[0]` -/
  | config
  deriving DecidableEq

/-- An operation the soft device has and has not reported yet. -/
inductive SdOp
  | erase (page : ℕ) (done : Bool)
  /-- with the words programmed so far -/
  | write (dst : ℕ) (src : Source) (cnt : ℕ) (programmed : List Word)
  deriving DecidableEq

/-- The union in `staging`, by its words. -/
structure Union where
  words : Fin 18 → Word

/-- The staging area, which both reading and writing use. -/
structure Staging where
  sequence : Word
  config : Config
  su : Union

/-- The states of `wrGo`. -/
inductive WrState
  | idle | erase1 | erase2 | erase3 | write1 | write2 | write3
  deriving DecidableEq

/-- What became of a record. -/
inductive Status
  /-- `wrGo` is at it -/
  | writing
  /-- `wrGo` found it written -/
  | completed
  /-- the power was lost before that -/
  | cut
  /-- `wrGo` gave up -/
  | failed
  deriving DecidableEq

/-- A record handed to `wrGo`: history, no part of the program. -/
structure Appended where
  words : List Word
  /-- where its first word was written to -/
  start : Option ℕ
  status : Status
  /-- a page with a word of it was erased since -/
  erased : Bool

/-- The variables of `store.c` that the log is made of. -/
structure Log where
  flash : ℕ → Word
  /-- the soft device -/
  sd : Option SdOp
  flashComplete : Bool
  flashWriteOp : Bool
  flashEraseOp : Bool
  flashTries : ℕ
  flashAddress : ℕ
  flashSource : Source
  flashCount : ℕ
  buf : Buffer
  staging : Staging
  currentWrite : ℕ
  sequence : Word
  /-- `state` of `wrGo` -/
  wrState : WrState
  needSeq : Bool
  /-- history: the records handed to `wrGo` -/
  records : List Appended
  /-- history: the flash writes the soft device performed -/
  written : List (ℕ × List Word)
  /-- history: the sequence records written -/
  advances : ℕ
  /-- history: the records accepted since the power came on -/
  accepted : List (List Word)
  /-- history: a call found the soft device busy -/
  refused : Bool

/-- The RAM a source stands for. -/
def Log.ram (s : Log) : Source → ℕ → Word
  | .buffer => s.buf.buffer
  | .config => fun i => s.staging.config.words.getD i 0#32

/-- `sd_flash_page_erase`; a busy soft device refuses. -/
def sdFlashPageErase (page : ℕ) (s : Log) : Log :=
  { s with
    sd := s.sd <|> some (.erase page false)
    refused := s.sd.isSome || s.refused }

/-- `sd_flash_write`; a busy soft device refuses. -/
def sdFlashWrite (dst : ℕ) (src : Source) (cnt : ℕ) (s : Log) : Log :=
  { s with
    sd := s.sd <|> some (.write dst src cnt [])
    refused := s.sd.isSome || s.refused }

/-- `flashErase`: schedule a flash erase operation. -/
def flashErase (addr : ℕ) (s : Log) : Log :=
  sdFlashPageErase (addr / pageWords)
    { s with
      flashComplete := false
      flashEraseOp := true
      flashWriteOp := false
      flashTries := 4
      flashAddress := addr }

/-- `flashWrite`: schedule a flash write operation. -/
def flashWrite (dst : ℕ) (src : Source) (cnt : ℕ) (s : Log) : Log :=
  sdFlashWrite dst src cnt
    { s with
      flashComplete := false
      flashEraseOp := false
      flashWriteOp := true
      flashTries := 4
      flashAddress := dst
      flashSource := src
      flashCount := cnt }

/-- A word of the record lies in the page. -/
def Appended.Touches (r : Appended) (page : ℕ) : Prop :=
  ∃ a, r.start = some a ∧ a / pageWords ≤ page ∧ page * pageWords < a + r.words.length

instance (r : Appended) (page : ℕ) : Decidable (r.Touches page) :=
  match h : r.start with
  | none => .isFalse fun ⟨_, ha, _⟩ => by rw [h] at ha; cases ha
  | some a => decidable_of_iff (a / pageWords ≤ page ∧ page * pageWords < a + r.words.length)
      ⟨fun ha => ⟨a, h, ha⟩, fun ⟨b, hb, hab⟩ => by rw [h] at hb; cases hb; exact hab⟩

/-- History: the page is erased. -/
def noteErased (page : ℕ) (rs : List Appended) : List Appended :=
  rs.map fun r => if r.Touches page then { r with erased := true } else r

/-- The erase of a page. -/
def erasePage (page : ℕ) (s : Log) : Log :=
  { s with
    flash := fun a => if a / pageWords = page then erasedWord else s.flash a
    records := noteErased page s.records }

/-- Programming can only clear bits. -/
def programWord (a : ℕ) (w : Word) (s : Log) : Log :=
  { s with flash := Function.update s.flash a (s.flash a &&& w) }

/-- A step of the soft device: the erase, or the next word. -/
def sdStep (s : Log) : Log :=
  match s.sd with
  | some (.erase page false) => { erasePage page s with sd := some (.erase page true) }
  | some (.write dst src cnt programmed) =>
    if programmed.length < cnt then
      let w := s.ram src programmed.length
      { programWord (dst + programmed.length) w s with
        sd := some (.write dst src cnt (programmed ++ [w])) }
    else s
  | _ => s

/-- `flashWriteRaw`. -/
def flashWriteRaw (dst : ℕ) (src : Source) (cnt : ℕ) (s : Log) : Log :=
  { (List.range cnt).foldl (fun t i => programWord (dst + i) (s.ram src i) t) s with
    written := s.written ++ [(dst, (List.range cnt).map (s.ram src))] }

/-- `StoreFlashed`. -/
def storeFlashed (ok : Bool) (s : Log) : Log :=
  if ok then { s with flashComplete := true }
  else if s.flashComplete then s
  else if s.flashTries > 0 then
    let s := { s with flashTries := s.flashTries - 1 }
    let s := if s.flashEraseOp then sdFlashPageErase (s.flashAddress / pageWords) s else s
    if s.flashWriteOp then sdFlashWrite s.flashAddress s.flashSource s.flashCount s else s
  else
    let s := if s.flashEraseOp then erasePage (s.flashAddress / pageWords) s else s
    let s := if s.flashWriteOp then flashWriteRaw s.flashAddress s.flashSource s.flashCount s else s
    { s with flashComplete := true }

/-- The soft device reports an operation it is through with. -/
def sdSuccess (s : Log) : Log :=
  match s.sd with
  | some (.erase _ true) => storeFlashed true { s with sd := none }
  | some (.write dst _ cnt programmed) =>
    if programmed.length = cnt then
      storeFlashed true { s with sd := none, written := s.written ++ [(dst, programmed)] }
    else s
  | _ => s

/-- The soft device gives an operation up. -/
def sdError (s : Log) : Log :=
  match s.sd with
  | some _ => storeFlashed false { s with sd := none }
  | none => s

/-! ## Writing records -/

/-- History: the record `wrGo` is at is written from here on. -/
def noteStart (a : ℕ) (rs : List Appended) : List Appended :=
  rs.map fun r => if r.status = .writing then { r with start := some a } else r

/-- History: `wrGo` is through with the record. -/
def noteStatus (status : Status) (rs : List Appended) : List Appended :=
  rs.map fun r => if r.status = .writing then { r with status := status } else r

/-- The label `done` of `wrGo`. -/
def wrDone (status : Status) (s : Log) : Log × Bool :=
  ({ s with
      buf := { s.buf with bufferIndex := bufferSize }
      wrState := .idle
      records := noteStatus status s.records }, false)

/-- `wrSeq` in `wrGo`. -/
def wrSequence (s : Log) : Log :=
  let r := wrSeq s.sequence s.buf
  { s with needSeq := false, buf := r.1, sequence := r.2, advances := s.advances + 1 }

/-- The label `write` of `wrGo`. -/
def wrWrite (ptr cnt : ℕ) (s : Log) : Log × Bool :=
  if s.flash ptr ≠ erasedWord then wrDone .completed { s with currentWrite := ptr + cnt }
  else
    let s := if s.needSeq then wrSequence s else s
    let s := { s with records := noteStart ptr s.records }
    (flashWrite ptr .buffer (s.buf.bufferIndex + 1) s, true)

/-- The label `erase` of `wrGo`. -/
def wrErase (ptr pe remain cnt : ℕ) (s : Log) : Log × Bool :=
  if cnt > remain then
    let next := if pe ≥ storeEnd then storeStart else pe
    if s.flash next ≠ erasedWord then (flashErase next s, true)
    else if ptr > next then
      wrWrite next cnt { s with currentWrite := next, needSeq := true, wrState := .write1 }
    else wrWrite ptr cnt { s with needSeq := true, wrState := .write1 }
  else wrWrite ptr cnt { s with wrState := .write1 }

/-- `wrGo`. -/
def wrGo (s : Log) : Log × Bool :=
  let ptr := s.currentWrite
  let page := ptr / pageWords * pageWords
  -- at the very beginning of a page the last one is just full
  let pe := if ptr = page then page else page + pageWords
  let remain := if ptr = page then 0 else page + pageWords - ptr
  let cnt := s.buf.bufferIndex + 1
  match s.wrState with
  | .idle => if cnt > bufferSize then (s, false) else wrErase ptr pe remain cnt
    { s with wrState := .erase1 }
  | .erase1 => wrErase ptr pe remain cnt { s with wrState := .erase2 }
  | .erase2 => wrErase ptr pe remain cnt { s with wrState := .erase3 }
  | .write1 => wrWrite ptr cnt { s with wrState := .write2 }
  | .write2 => wrWrite ptr cnt { s with wrState := .write3 }
  | .erase3 | .write3 => wrDone .failed s

/-- Format a record and start to write it. -/
def appendRecord (ty : Word) (fs : List (ℕ × Word)) (s : Log) : Log × Bool :=
  let buf := wrFields fs (wrNew ty s.buf)
  wrGo { s with buf := buf, records := s.records ++ [⟨buf.words, none, .writing, false⟩] }

/-! ## Reading records -/

/-- `staging.sui` of the union. -/
def Union.sui (u : Union) : SuInfo := ⟨u.words 0, u.words 1, u.words 2, u.words 3⟩

/-- `staging.sux` of the union. -/
def Union.sux (u : Union) : SuExec := ⟨u.words 0, u.words 1⟩

/-- `staging.sud` of the union. -/
def Union.sud (u : Union) : SuData :=
  ⟨u.words 0, u.words 1, ((List.ofFn u.words).drop 2).flatMap wordBytes⟩

/-- Store a header in the union. -/
def Union.setSui (u : Union) (i : SuInfo) : Union :=
  ⟨fun k => if k = 0 then i.sequence else if k = 1 then i.version else if k = 2 then i.start
    else if k = 3 then i.stop else u.words k⟩

/-- Store an execute record in the union. -/
def Union.setSux (u : Union) (x : SuExec) : Union :=
  ⟨fun k => if k = 0 then x.sequence else if k = 1 then x.version else u.words k⟩

/-- Store a chunk in the union. -/
def Union.setSud (_ : Union) (d : SuData) : Union :=
  ⟨fun k => if k = 0 then d.sequence else if k = 1 then d.address
    else d.data.getD (4 * (k - 2) + 3) 0#8 ++ d.data.getD (4 * (k - 2) + 2) 0#8 ++
      d.data.getD (4 * (k - 2) + 1) 0#8 ++ d.data.getD (4 * (k - 2)) 0#8⟩

@[simp] theorem Union.sui_setSui (u : Union) (i : SuInfo) : (u.setSui i).sui = i := rfl

@[simp] theorem Union.sux_setSux (u : Union) (x : SuExec) : (u.setSux x).sux = x := rfl

/-- The bytes of a word put together from bytes. -/
theorem wordBytes_append (a b c d : Byte) : wordBytes (d ++ c ++ b ++ a) = [a, b, c, d] := by
  simp only [wordBytes, List.cons.injEq, and_true]
  refine ⟨?_, ?_, ?_, ?_⟩ <;> ext i hi <;>
    simp only [BitVec.getElem_setWidth, BitVec.getLsbD_ushiftRight, BitVec.getLsbD_append,
      BitVec.getLsbD_eq_getElem hi]
  · simp [hi]
  · simp [hi, show ¬ 8 + i < 8 by omega]
  · simp [hi, show ¬ 16 + i < 8 by omega, show ¬ 16 + i - 8 < 8 by omega,
      show 16 + i - 8 - 8 = i by omega]
  · simp [hi, show ¬ 24 + i < 8 by omega, show ¬ 24 + i - 8 < 8 by omega,
      show ¬ 24 + i - 8 - 8 < 8 by omega, show 24 + i - 8 - 8 - 8 = i by omega]

/-- Bytes put together to words come apart again. -/
theorem flatMap_wordBytes (n : ℕ) : ∀ l : List Byte, l.length = 4 * n →
    (List.ofFn fun k : Fin n => l.getD (4 * k + 3) 0#8 ++ l.getD (4 * k + 2) 0#8 ++
      l.getD (4 * k + 1) 0#8 ++ l.getD (4 * k) 0#8).flatMap wordBytes = l := by
  induction n with
  | zero => exact fun l h => (List.eq_nil_of_length_eq_zero h).symm
  | succ n ih =>
    intro l h
    match l with
    | a :: b :: c :: d :: l =>
      have hl : l.length = 4 * n := by simp only [List.length_cons] at h; omega
      rw [List.ofFn_succ, List.flatMap_cons]
      refine (congrArg₂ _ (wordBytes_append a b c d) ?_).trans rfl
      exact ih l hl
    | [] | [_] | [_, _] | [_, _, _] => simp only [List.length_cons, List.length_nil] at h; omega

/-- A whole chunk comes back from the union. -/
theorem Union.sud_setSud (u : Union) {d : SuData} (h : d.data.length = oqSuChunk) :
    (u.setSud d).sud = d := by
  have hdrop : (List.ofFn (u.setSud d).words).drop 2 = List.ofFn fun k : Fin 16 =>
      d.data.getD (4 * k + 3) 0#8 ++ d.data.getD (4 * k + 2) 0#8 ++
      d.data.getD (4 * k + 1) 0#8 ++ d.data.getD (4 * k) 0#8 := rfl
  rw [Union.sud, hdrop, flatMap_wordBytes 16 d.data h]
  rfl

/-- The first `switch` of `importRecord`. -/
def importFields (ty : Word) (b : Buffer) (st : Staging) : Buffer × Staging :=
  if ty = rtSequence then
    let r := rd rtShift b
    (r.2, { st with sequence := r.1 })
  else if ty = rtConfig then
    let r := rdConfig b
    (r.2, { st with config := r.1 })
  else if ty = rtSuHdr then
    let r := rdSuInfo b
    (r.2, { st with su := st.su.setSui r.1 })
  else if ty = rtSuData then
    let r := rdSuData b
    (r.2, { st with su := st.su.setSud r.1 })
  else if ty = rtSuExec then
    let r := rdSuExec b
    (r.2, { st with su := st.su.setSux r.1 })
  else (b, st)

/-- `importRecord` up to the hand-over to the handlers. -/
def importRecord (s : Log) : Log :=
  let ty := recordType (s.buf.buffer 0)
  let r := importFields ty s.buf.rewind s.staging
  { s with
    buf := r.1
    staging := r.2
    accepted :=
      if r.1.bufferLimit = 0 ∨ ty = rtSequence then s.accepted else s.accepted ++ [s.buf.words] }

/-- The reader of the log. -/
def logReader : Reader Log where
  buf s := s.buf
  setBuf s b := { s with buf := b }
  word s := s.flash
  importRecord := importRecord
  buf_setBuf _ _ := rfl
  setBuf_setBuf _ _ _ := rfl
  setBuf_buf _ := rfl
  word_setBuf _ _ := rfl

/-! ## Power loss and boot -/

/-- The staging area as the C start-up code leaves it. -/
def Staging.init : Staging := ⟨0#32, .zero, ⟨fun _ => 0#32⟩⟩

/-- A cut is a record the power loss found half written. -/
def powerLoss (s : Log) : Log :=
  { flash := s.flash
    sd := none
    flashComplete := false
    flashWriteOp := false
    flashEraseOp := false
    flashTries := 0
    flashAddress := 0
    flashSource := .buffer
    flashCount := 0
    buf := .init
    staging := .init
    currentWrite := 0
    sequence := 0#32
    wrState := .idle
    needSeq := false
    records := noteStatus .cut s.records
    written := s.written
    advances := s.advances
    accepted := []
    refused := s.refused }

/-- The state `INIT0` after `readFlash`. -/
def setUpWrite (newCurrentWrite newSequence : ℕ) (s : Log) : Log :=
  if newCurrentWrite = 0 then { s with currentWrite := storeStart, sequence := 0#32 }
  else { s with currentWrite := newCurrentWrite, sequence := BitVec.ofNat 32 newSequence }

/-- Start up. -/
def boot (s : Log) : Log :=
  let r := readFlash logReader storeRegion (powerLoss s)
  setUpWrite r.2.1 r.2.2 r.1

/-- A log on this flash, before any boot. -/
def Log.off (flash : ℕ → Word) : Log :=
  ⟨flash, none, false, false, false, 0, 0, .buffer, 0, .init, .init, 0, 0#32, .idle, false,
    [], [], 0, [], false⟩

end App

end AntTracer
