import AntTracer.Record.Format
import AntTracer.Loader.Map

/-!
# The boot loader

The three passes of `Main` over the store: search for a complete and executed
software update, compare it with flash and mark the pages that differ, erase
these pages and write the chunks that differ. Flash is byte addressed.

`Main` is written over the function that reads the store (`mainWith`). The
loader's own one is `StoreRead` (`main`); the other one delivers the records
of a list (`runRecords`). `main_refines` says that they agree for as long as
no flash operation has touched the store.

`memcmp` is a parameter, since it reads what lies behind the chunk in RAM;
`loaderMemcmp` is the loader's own.
-/

namespace AntTracer

namespace Loader

/-- `OQ_FLASH_PAGE`. -/
abbrev flashPage : ℕ := 0x1000

/-- `OQ_FLASH_PAGES`. -/
abbrev flashPages : ℕ := 128

/-- `OQ_FLASH_SIZE`. -/
abbrev flashSize : ℕ := flashPages * flashPage

/-! ## Flash -/

/-- The word at an address. -/
def flashWord (flash : ℕ → Byte) (a : ℕ) : Word :=
  flash (a + 3) ++ flash (a + 2) ++ flash (a + 1) ++ flash a

/-- The `n` bytes from an address on. -/
def flashBytes (flash : ℕ → Byte) (a n : ℕ) : List Byte := (List.range n).map fun i => flash (a + i)

/-- A flash operation: `FlashErase` or `FlashProgram`. -/
inductive FlashOp
  | erase (addr : ℕ)
  | program (dst : ℕ) (src : List Byte)

/-- The addresses a flash operation touches. -/
def FlashOp.Touches : FlashOp → ℕ → Prop
  | erase addr, a => addr / flashPage = a / flashPage
  | program dst src, a => dst ≤ a ∧ a < dst + src.length

/-- What a flash operation does: an erased page is all ones, and programming
only clears bits. -/
def FlashOp.apply : FlashOp → (ℕ → Byte) → ℕ → Byte
  | erase addr, flash, a => if addr / flashPage = a / flashPage then 0xff#8 else flash a
  | program dst src, flash, a =>
    if dst ≤ a ∧ a < dst + src.length then flash a &&& src.getD (a - dst) 0xff#8 else flash a

/-! ## Comparing -/

/-- The loop of the loader's `memcmp`. Both pointers advance, `i` does not;
`none` when it runs off memory. -/
def memcmpFrom (len i : ℕ) : List Byte → List Byte → Option ℤ
  | l :: ls, r :: rs =>
    if i < len then
      if l < r then some (-1)
      else if l > r then some 1
      else memcmpFrom len i ls rs
    else some 0
  | _, _ => if i < len then none else some 0

/-- `memcmp` of the loader, on what memory holds from the two pointers on. -/
def memcmp (l r : List Byte) (len : ℕ) : Option ℤ := memcmpFrom len 0 l r

/-- The standard `memcmp`. -/
def stdMemcmp : ℕ → List Byte → List Byte → ℤ
  | n + 1, l :: ls, r :: rs => if l < r then -1 else if l > r then 1 else stdMemcmp n ls rs
  | _, _, _ => 0

/-- A comparison of a chunk with flash. The first argument counts the
comparisons made before. -/
abbrev Comparator := ℕ → SuData → (ℕ → Byte) → Option ℤ

/-- The loader's own comparison; `ram` is what lies behind the chunk in RAM at
each. -/
def loaderMemcmp (ram : ℕ → List Byte) : Comparator := fun i data flash =>
  memcmp (data.data ++ ram i)
    (flashBytes flash data.address.toNat (flashSize - data.address.toNat)) oqSuChunk

/-- The standard comparison. -/
def stdCompare : Comparator := fun _ data flash =>
  some (stdMemcmp oqSuChunk data.data (flashBytes flash data.address.toNat oqSuChunk))

/-! ## The state -/

/-- `Op`: what to do with the chunks in the store. -/
inductive Op
  | search
  | compare
  | write
  deriving DecidableEq

/-- The state of the loader. -/
structure State where
  /-- the record buffer of `store.c` -/
  buf : Buffer
  op : Op
  suInfo : SuInfo
  suExec : SuExec
  chunks : Map
  pages : Map
  flash : ℕ → Byte
  /-- the flash operations so far -/
  ops : List FlashOp
  /-- how often `memcmp` was called -/
  compares : ℕ
  /-- a `memcmp` has run off memory -/
  hung : Bool

/-- The state the loader starts in. -/
def State.boot (flash : ℕ → Byte) : State where
  buf := Buffer.init
  op := .search
  suInfo := ⟨0#32, 0#32, 0#32, 0#32⟩
  suExec := ⟨0#32, 0#32⟩
  chunks := mapDefine 0#32 0x40000#32 (BitVec.ofNat 32 oqSuChunk)
  pages := mapDefine 0#32 0x40000#32 (BitVec.ofNat 32 flashPage)
  flash := flash
  ops := []
  compares := 0
  hung := false

/-- Perform a flash operation. -/
def State.perform (o : FlashOp) (s : State) : State :=
  { s with flash := o.apply s.flash, ops := s.ops ++ [o] }

/-- The addresses `Main` takes from the UICR. -/
structure UICR where
  storeStart : Word
  storeEnd : Word

/-- `Main` gives up on these. -/
def UICR.Bad (u : UICR) : Prop :=
  (u.storeStart < 0x1000#32 ∨ u.storeStart > 0x7f000#32) ∨
    (u.storeEnd < u.storeStart + 0x1000#32 ∨ u.storeEnd > 0x80000#32)

instance (u : UICR) : Decidable u.Bad := inferInstanceAs (Decidable ((_ ∨ _) ∨ (_ ∨ _)))

/-- The region `readFlash` goes over. -/
def UICR.region (u : UICR) : Region := ⟨u.storeStart.toNat, u.storeEnd.toNat, 4⟩

/-! ## The call backs -/

/-- The sanity test of a header. -/
def Insane (info : SuInfo) : Prop :=
  (info.start < 0x1000#32 ∨ info.start > 0x7f000#32) ∨
    (info.stop < info.start + 0x1000#32 ∨ info.stop > 0x80000#32)

instance (info : SuInfo) : Decidable (Insane info) :=
    inferInstanceAs (Decidable ((_ ∨ _) ∨ (_ ∨ _)))

/-- Take up a header, and start collecting chunks again. -/
def State.takeHeader (info : SuInfo) (s : State) : State :=
  { s with
    suInfo := info
    chunks := mapSetRange (mapClearAll s.chunks) info.start.toNat info.stop.toNat
    suExec := ⟨0#32, s.suExec.version⟩ }

/-- `StoreCallbackSoftwareUpdateInfo`. -/
def storeCallbackSoftwareUpdateInfo (info : SuInfo) (s : State) : State :=
  if Insane info then s
  else
    match s.op with
    | .search =>
      if info.sequence > s.suInfo.sequence then s.takeHeader info else s
    | .compare => s
    | .write => s

/-- The chunk is not one of the update. -/
def Foreign (info : SuInfo) (data : SuData) : Prop :=
  data.sequence ≠ info.sequence ∨ data.address < info.start ∨
    data.address + BitVec.ofNat 32 oqSuChunk > info.stop

instance (info : SuInfo) (data : SuData) : Decidable (Foreign info data) :=
  inferInstanceAs (Decidable (_ ∨ _ ∨ _))

/-- `StoreCallbackSoftwareUpdateChunk`. -/
def storeCallbackSoftwareUpdateChunk (m : Comparator) (data : SuData) (s : State) : State :=
  if Foreign s.suInfo data then s
  else
    match s.op with
    | .search => { s with chunks := mapClear s.chunks data.address.toNat }
    | .compare =>
      match m s.compares data s.flash with
      | none => { s with hung := true, compares := s.compares + 1 }
      | some r =>
        let s := { s with compares := s.compares + 1 }
        if r ≠ 0 then { s with pages := mapSet s.pages data.address.toNat } else s
    | .write =>
      match m s.compares data s.flash with
      | none => { s with hung := true, compares := s.compares + 1 }
      | some r =>
        let s := { s with compares := s.compares + 1 }
        if r ≠ 0 then s.perform (.program data.address.toNat data.data) else s

/-- `StoreCallbackSoftwareUpdateExecute`. -/
def storeCallbackSoftwareUpdateExecute (exec : SuExec) (s : State) : State :=
  match s.op with
  | .search => if exec.sequence = s.suInfo.sequence then { s with suExec := exec } else s
  | .compare => s
  | .write => s

/-! ## Reading the store -/

/-- `importRecord` of the loader. After a `memcmp` that ran off memory
nothing happens. -/
def importRecord (m : Comparator) (s : State) : State :=
  if s.hung then s
  else
    let ty := recordType (s.buf.buffer 0)
    let b := s.buf.rewind
    if ty = rtSuHdr then
      let sui := rdSuInfo b
      let s := { s with buf := sui.2 }
      if sui.2.bufferLimit = 0 then s else storeCallbackSoftwareUpdateInfo sui.1 s
    else if ty = rtSuData then
      let sud := rdSuData b
      let s := { s with buf := sud.2 }
      if sud.2.bufferLimit = 0 then s else storeCallbackSoftwareUpdateChunk m sud.1 s
    else if ty = rtSuExec then
      let sux := rdSuExec b
      let s := { s with buf := sux.2 }
      if sux.2.bufferLimit = 0 then s else storeCallbackSoftwareUpdateExecute sux.1 s
    else { s with buf := b }

/-- The loader as a reader of the store. -/
def reader (m : Comparator) : Reader State where
  buf := State.buf
  setBuf s b := { s with buf := b }
  word s := flashWord s.flash
  importRecord := importRecord m
  buf_setBuf _ _ := rfl
  setBuf_setBuf _ _ _ := rfl
  setBuf_buf _ := rfl
  word_setBuf _ _ := rfl

/-- `StoreRead`. -/
def storeRead (m : Comparator) (u : UICR) (s : State) : State :=
  (readFlash (reader m) u.region s).1

/-! ## `Main` -/

/-- The search test: there is no update to apply. -/
def State.SearchFails (s : State) : Prop :=
  s.suInfo.sequence = 0#32 ∨ ¬ mapIsClearAll s.chunks = true ∨ s.suInfo.version ≠ s.suExec.version

instance (s : State) : Decidable s.SearchFails := inferInstanceAs (Decidable (_ ∨ _ ∨ _))

/-- The erase loop, over `n` pages from `pg` on. -/
def erasePages (storeStart : ℕ) : ℕ → ℕ → State → State
  | 0, _, s => s
  | n + 1, pg, s =>
    if pg < storeStart then
      let s := if mapIsSet s.pages pg then s.perform (.erase pg) else s
      erasePages storeStart n (pg + flashPage) s
    else s

/-- The search pass. -/
def searchPass (read : State → State) (s : State) : State := read { s with op := .search }

/-- The compare pass. -/
def comparePass (read : State → State) (s : State) : State :=
  read { s with op := .compare, pages := mapClearAll s.pages }

/-- The write pass. -/
def writePass (read : State → State) (s : State) : State := read { s with op := .write }

/-- `Main`, up to `GoSoftDevice`; it does not get there if a `memcmp` has run
off memory. -/
def mainWith (read : State → State) (u : UICR) (s : State) : State :=
  if u.Bad then s
  else
    let s := searchPass read s
    if s.SearchFails then s
    else
      let s := comparePass read s
      if s.hung then s
      else if mapIsClearAll s.pages then s
      else writePass read (erasePages u.storeStart.toNat flashPages flashPage s)

/-- `Main` on the loader's own reading of the store. -/
def main (m : Comparator) (u : UICR) (flash : ℕ → Byte) : State :=
  mainWith (storeRead m u) u (State.boot flash)

/-- `Main` gets past its search test. -/
def PastSearch (m : Comparator) (u : UICR) (flash : ℕ → Byte) : Prop :=
  ¬ u.Bad ∧ ¬ (searchPass (storeRead m u) (State.boot flash)).SearchFails

/-- The header `Main` selects. -/
def selected (m : Comparator) (u : UICR) (flash : ℕ → Byte) : SuInfo :=
  (searchPass (storeRead m u) (State.boot flash)).suInfo

/-! ## The records of the store -/

/-- A record the loader looks at. -/
inductive StoreRecord
  | info (info : SuInfo)
  | chunk (data : SuData)
  | exec (exec : SuExec)
  deriving DecidableEq

/-- A raw record as `importRecord` decodes it; `none` when it is ignored. -/
def decode (l : List Word) : Option StoreRecord :=
  let ty := recordType (l.getD 0 0#32)
  if ty = rtSuHdr then (readAs rdSuInfo l).map .info
  else if ty = rtSuData then (readAs rdSuData l).map .chunk
  else if ty = rtSuExec then (readAs rdSuExec l).map .exec
  else none

/-- The records of the store, in the order in which `readFlash` finds them. -/
def storeRecords (u : UICR) (flash : ℕ → Byte) : List StoreRecord :=
  (rawRecords u.region (flashWord flash)).filterMap decode

/-- Deliver a record. -/
def callback (m : Comparator) (r : StoreRecord) (s : State) : State :=
  if s.hung then s
  else
    match r with
    | .info info => storeCallbackSoftwareUpdateInfo info s
    | .chunk data => storeCallbackSoftwareUpdateChunk m data s
    | .exec exec => storeCallbackSoftwareUpdateExecute exec s

/-- Deliver the records of a list. -/
def runRecords (m : Comparator) (rs : List StoreRecord) (s : State) : State :=
  rs.foldl (fun s r => callback m r s) s

/-! ## What a callback leaves alone -/

variable {m : Comparator} {u : UICR} {s : State} {S : ℕ}

/-- `s` with another record buffer. -/
abbrev State.setBuf (s : State) (b : Buffer) : State := { s with buf := b }

theorem callback_setBuf (r : StoreRecord) (s : State) (b : Buffer) :
    callback m r (s.setBuf b) = (callback m r s).setBuf b := by
  obtain ⟨buf, op, suInfo, suExec, chunks, pages, flash, ops, compares, hung⟩ := s
  cases hung with
  | true => rfl
  | false =>
    cases r with
    | info info =>
      simp only [callback, storeCallbackSoftwareUpdateInfo, Bool.false_eq_true, if_false]
      cases op <;> split_ifs <;> rfl
    | chunk data =>
      simp only [callback, storeCallbackSoftwareUpdateChunk, Bool.false_eq_true, if_false]
      by_cases hf : Foreign suInfo data
      · simp only [if_pos hf]
      simp only [if_neg hf]
      cases op with
      | search => rfl
      | compare =>
        cases m compares data flash with
        | none => rfl
        | some r => by_cases hr : r = 0 <;> simp [hr]
      | write =>
        cases m compares data flash with
        | none => rfl
        | some r => by_cases hr : r = 0 <;> simp [hr, State.perform]
    | exec exec =>
      simp only [callback, storeCallbackSoftwareUpdateExecute, Bool.false_eq_true, if_false]
      cases op with
      | search => simp only; split_ifs <;> rfl
      | _ => rfl

theorem runRecords_setBuf (rs : List StoreRecord) : ∀ (s : State) (b : Buffer),
    runRecords m rs (s.setBuf b) = (runRecords m rs s).setBuf b := by
  induction rs with
  | nil => exact fun _ _ => rfl
  | cons r rs ih =>
    intro s b
    rw [runRecords, List.foldl_cons, callback_setBuf]
    exact ih _ _

theorem runRecords_append (rs rs' : List StoreRecord) (s : State) :
    runRecords m (rs ++ rs') s = runRecords m rs' (runRecords m rs s) := List.foldl_append

theorem runRecords_cons (r : StoreRecord) (rs : List StoreRecord) (s : State) :
    runRecords m (r :: rs) s = runRecords m rs (callback m r s) := rfl

/-- **What holds of a state and is kept by every callback holds after the
records.** -/
theorem runRecords_inv {P : State → Prop} (rs : List StoreRecord)
    (h : ∀ r ∈ rs, ∀ s, P s → P (callback m r s)) : ∀ s, P s → P (runRecords m rs s) := by
  induction rs with
  | nil => exact fun _ hs => hs
  | cons r rs ih =>
    intro s hs
    exact ih (fun r' hr' => h r' (List.mem_cons_of_mem _ hr')) _ (h r (List.mem_cons_self ..) s hs)

/-- What a callback can do, case by case. -/
inductive Called (m : Comparator) (s : State) : StoreRecord → State → Prop
  /-- the record is ignored -/
  | ignored (r : StoreRecord) : Called m s r s
  /-- a newer header replaces the one selected -/
  | header (info : SuInfo) : s.op = .search → ¬ Insane info →
      info.sequence > s.suInfo.sequence →
      Called m s (.info info) (s.takeHeader info)
  /-- a chunk of the update is found -/
  | found (data : SuData) : s.op = .search → ¬ Foreign s.suInfo data →
      Called m s (.chunk data) { s with chunks := mapClear s.chunks data.address.toNat }
  /-- an execute record of the update is found -/
  | execute (exec : SuExec) : s.op = .search → exec.sequence = s.suInfo.sequence →
      Called m s (.exec exec) { s with suExec := exec }
  /-- a comparison runs off memory -/
  | hang (data : SuData) : s.op ≠ .search → ¬ Foreign s.suInfo data →
      m s.compares data s.flash = none →
      Called m s (.chunk data) { s with hung := true, compares := s.compares + 1 }
  /-- a chunk equals flash -/
  | equal (data : SuData) : s.op ≠ .search → ¬ Foreign s.suInfo data →
      m s.compares data s.flash = some 0 →
      Called m s (.chunk data) { s with compares := s.compares + 1 }
  /-- a chunk differs: its page is marked -/
  | mark (data : SuData) (r : ℤ) : s.op = .compare → ¬ Foreign s.suInfo data →
      m s.compares data s.flash = some r → r ≠ 0 →
      Called m s (.chunk data)
        { s with compares := s.compares + 1, pages := mapSet s.pages data.address.toNat }
  /-- a chunk differs: it is written -/
  | program (data : SuData) (r : ℤ) : s.op = .write → ¬ Foreign s.suInfo data →
      m s.compares data s.flash = some r → r ≠ 0 →
      Called m s (.chunk data)
        (({ s with compares := s.compares + 1 } : State).perform
          (.program data.address.toNat data.data))

theorem callback_called (r : StoreRecord) (s : State) : Called m s r (callback m r s) := by
  obtain ⟨buf, op, suInfo, suExec, chunks, pages, flash, ops, compares, hung⟩ := s
  unfold callback
  split
  · exact .ignored r
  cases r with
  | info info =>
    simp only [storeCallbackSoftwareUpdateInfo]
    by_cases hi : Insane info
    · rw [if_pos hi]
      exact .ignored _
    rw [if_neg hi]
    cases op with
    | search =>
      by_cases hlt : info.sequence > suInfo.sequence
      · rw [if_pos hlt]
        exact .header info rfl hi hlt
      · rw [if_neg hlt]
        exact .ignored _
    | compare => exact .ignored _
    | write => exact .ignored _
  | exec exec =>
    simp only [storeCallbackSoftwareUpdateExecute]
    cases op with
    | search =>
      by_cases heq : exec.sequence = suInfo.sequence
      · rw [if_pos heq]
        exact .execute exec rfl heq
      · rw [if_neg heq]
        exact .ignored _
    | compare => exact .ignored _
    | write => exact .ignored _
  | chunk data =>
    simp only [storeCallbackSoftwareUpdateChunk]
    by_cases hf : Foreign suInfo data
    · rw [if_pos hf]
      exact .ignored _
    rw [if_neg hf]
    cases op with
    | search => exact .found data rfl hf
    | compare =>
      cases hc : m compares data flash with
      | none => exact .hang data Op.noConfusion hf hc
      | some r =>
        by_cases hr : r = 0
        · subst hr
          exact .equal data Op.noConfusion hf hc
        · simp only [ne_eq, hr, not_false_eq_true, if_true]
          exact .mark data r rfl hf hc hr
    | write =>
      cases hc : m compares data flash with
      | none => exact .hang data Op.noConfusion hf hc
      | some r =>
        by_cases hr : r = 0
        · subst hr
          exact .equal data Op.noConfusion hf hc
        · simp only [ne_eq, hr, not_false_eq_true, if_true]
          exact .program data r rfl hf hc hr

/-- A callback performs no flash operation, or programs a chunk of the
update in the write pass. -/
theorem callback_flash (r : StoreRecord) (s : State) :
    ((callback m r s).flash = s.flash ∧ (callback m r s).ops = s.ops) ∨
      ∃ data, r = .chunk data ∧ s.op = .write ∧ ¬ Foreign s.suInfo data ∧
        (callback m r s).flash = (FlashOp.program data.address.toNat data.data).apply s.flash ∧
        (callback m r s).ops = s.ops ++ [.program data.address.toNat data.data] := by
  have h := callback_called (m := m) r s
  generalize callback m r s = s' at h
  cases h with
  | program data r hop hf hc hr => exact Or.inr ⟨data, rfl, hop, hf, rfl, rfl⟩
  | _ => exact Or.inl ⟨rfl, rfl⟩

/-- The pass is the same after a callback. -/
theorem callback_op (r : StoreRecord) (s : State) : (callback m r s).op = s.op := by
  have h := callback_called (m := m) r s
  generalize callback m r s = s' at h
  cases h <;> rfl

/-! ## Damage -/

/-- No flash operation has touched an address from `S` on. -/
def State.Undamaged (S : ℕ) (s : State) : Prop := ∀ o ∈ s.ops, ∀ a, o.Touches a → a < S

/-- Flash is intact from `S` on unless a flash operation has touched it. -/
def State.Intact (S : ℕ) (flash₀ : ℕ → Byte) (s : State) : Prop :=
  s.Undamaged S → ∀ a, S ≤ a → s.flash a = flash₀ a

theorem FlashOp.apply_of_not_touches {o : FlashOp} {a : ℕ} (h : ¬ o.Touches a) (flash : ℕ → Byte) :
    o.apply flash a = flash a := by
  cases o with
  | erase addr => exact if_neg h
  | program dst src => exact if_neg h

theorem State.undamaged_perform {o : FlashOp} :
    (s.perform o).Undamaged S ↔ s.Undamaged S ∧ ∀ a, o.Touches a → a < S := by
  simp only [State.Undamaged, State.perform, List.mem_append, List.mem_singleton]
  constructor
  · exact fun h => ⟨fun o' ho' => h o' (Or.inl ho'), h o (Or.inr rfl)⟩
  · rintro ⟨h₁, h₂⟩ o' (ho' | rfl)
    · exact h₁ o' ho'
    · exact h₂

theorem State.Intact.perform {flash₀ : ℕ → Byte} (h : s.Intact S flash₀) (o : FlashOp) :
    (s.perform o).Intact S flash₀ := by
  intro hu a ha
  obtain ⟨h₁, h₂⟩ := State.undamaged_perform.1 hu
  have hnot : ¬ o.Touches a := fun ht => absurd (h₂ a ht) (by omega)
  exact (FlashOp.apply_of_not_touches hnot s.flash).trans (h h₁ a ha)

theorem intact_callback {flash₀ : ℕ → Byte} (h : s.Intact S flash₀) (r : StoreRecord) :
    (callback m r s).Intact S flash₀ := by
  rcases callback_flash (m := m) r s with ⟨h₁, h₂⟩ | ⟨data, -, -, -, h₁, h₂⟩
  · simpa only [State.Intact, State.Undamaged, h₁, h₂] using h
  · have := h.perform (.program data.address.toNat data.data)
    simpa only [State.Intact, State.Undamaged, h₁, h₂, State.perform] using this

theorem damaged_callback (h : ¬ s.Undamaged S) (r : StoreRecord) :
    ¬ (callback m r s).Undamaged S := by
  intro hu
  rcases callback_flash (m := m) r s with ⟨-, h₂⟩ | ⟨data, -, -, -, -, h₂⟩
  · exact h (by simpa only [State.Undamaged, h₂] using hu)
  · refine h fun o ho => hu o ?_
    rw [h₂]
    exact List.mem_append_left _ ho

theorem erasePages_inv {P : State → Prop} (h : ∀ s pg, P s → P (s.perform (.erase pg))) (n : ℕ) :
    ∀ (pg : ℕ) (s : State), P s → P (erasePages S n pg s) := by
  induction n with
  | zero => exact fun _ _ hs => hs
  | succ n ih =>
    intro pg s hs
    rw [erasePages]
    split
    · refine ih _ _ ?_
      split
      · exact h s pg hs
      · exact hs
    · exact hs

theorem erasePages_setBuf (n : ℕ) : ∀ (pg : ℕ) (s : State) (b : Buffer),
    erasePages S n pg (s.setBuf b) = (erasePages S n pg s).setBuf b := by
  induction n with
  | zero => exact fun _ _ _ => rfl
  | succ n ih =>
    intro pg s b
    rw [erasePages, erasePages]
    split
    · rw [← ih]
      by_cases hm : mapIsSet s.pages pg = true <;> simp [hm, State.perform]
    · rfl

/-! ## Reading the store delivers its records -/

/-- Delivery of a raw record. -/
def deliver (m : Comparator) (l : List Word) (s : State) : State :=
  (decode l).elim s fun r => callback m r s

/-- A record that is read and passed to its call back. -/
theorem readAs_callback {α : Type} {f : Buffer → α × Buffer} {ns : List ℕ} {g : List Word → α}
    (hf : ReadsAs f ns g) (mk : α → StoreRecord) (call : α → State → State)
    (hcall : ∀ x s, s.hung = false → callback m (mk x) s = call x s) {l : List Word}
    (hl : s.buf.Holds (some l)) (hung : s.hung = false) :
    ∃ b, (if (f s.buf.rewind).2.bufferLimit = 0 then s.setBuf (f s.buf.rewind).2
        else call (f s.buf.rewind).1 (s.setBuf (f s.buf.rewind).2)) =
      (((readAs f l).map mk).elim s fun r => callback m r s).setBuf b := by
  refine ⟨(f s.buf.rewind).2, ?_⟩
  rw [← hf.readAs_rewind hl]
  by_cases h₀ : (f s.buf.rewind).2.bufferLimit = 0
  · rw [if_pos h₀, if_pos h₀]
    rfl
  · have h := hcall (f s.buf.rewind).1 (s.setBuf (f s.buf.rewind).2) hung
    rw [if_neg h₀, if_neg h₀, ← h, callback_setBuf]
    rfl

theorem reader_delivers (m : Comparator) : (reader m).Delivers (deliver m) where
  importRecord_eq s l hl := by
    change ∃ b, importRecord m s = (deliver m l s).setBuf b
    have hl' : s.buf.Holds (some l) := hl
    have hpos : 0 < l.length := by rw [hl'.1]; omega
    have hfirst : s.buf.buffer 0 = l.getD 0 0#32 := by
      rw [List.getD_eq_getElem _ _ hpos]
      exact hl'.2.2 0 hpos
    unfold importRecord
    by_cases hung : s.hung = true
    · rw [if_pos hung, deliver]
      refine ⟨s.buf, ?_⟩
      cases decode l with
      | none => rfl
      | some r => simp [callback, hung]
    · rw [if_neg hung]
      have hung' : s.hung = false := by simpa using hung
      unfold deliver decode
      simp only [hfirst]
      have hinfo := readAs_callback (m := m) rdSuInfo_reads .info
        storeCallbackSoftwareUpdateInfo
        (fun _ _ h => by simp [callback, h]) hl' hung'
      have hdata := readAs_callback (m := m) rdSuData_reads .chunk
        (storeCallbackSoftwareUpdateChunk m)
        (fun _ _ h => by simp [callback, h]) hl' hung'
      have hexec := readAs_callback (m := m) rdSuExec_reads .exec
        storeCallbackSoftwareUpdateExecute
        (fun _ _ h => by simp [callback, h]) hl' hung'
      by_cases h₁ : recordType (l.getD 0 0#32) = rtSuHdr
      · simpa only [if_pos h₁] using hinfo
      by_cases h₂ : recordType (l.getD 0 0#32) = rtSuData
      · simpa only [if_neg h₁, if_pos h₂] using hdata
      by_cases h₃ : recordType (l.getD 0 0#32) = rtSuExec
      · simpa only [if_neg h₁, if_neg h₂, if_pos h₃] using hexec
      · simp only [if_neg h₁, if_neg h₂, if_neg h₃]
        exact ⟨s.buf.rewind, rfl⟩
  deliver_setBuf l s b := by
    change deliver m l (s.setBuf b) = (deliver m l s).setBuf b
    unfold deliver
    cases decode l with
    | none => rfl
    | some r => exact callback_setBuf r s b

theorem deliverAll_eq (ls : List (List Word)) : ∀ s : State,
    deliverAll (deliver m) ls s = runRecords m (ls.filterMap decode) s := by
  induction ls with
  | nil => exact fun _ => rfl
  | cons l ls ih =>
    intro s
    rw [deliverAll, List.foldl_cons, ← deliverAll, ih, List.filterMap_cons, deliver]
    cases decode l <;> rfl

theorem flashWord_congr {flash flash' : ℕ → Byte} {a : ℕ} (h : ∀ i, a ≤ i → flash i = flash' i) :
    flashWord flash a = flashWord flash' a := by
  simp only [flashWord, h a le_rfl, h (a + 1) (by omega), h (a + 2) (by omega),
    h (a + 3) (by omega)]

theorem reader_keeps (m : Comparator) (u : UICR) (flash₀ : ℕ → Byte) :
    (reader m).Keeps (deliver m) u.region.start (flashWord flash₀)
      (State.Undamaged u.storeStart.toNat) (State.Intact u.storeStart.toNat flash₀) where
  word_eq s hJ hg a ha := flashWord_congr fun i hi => hJ hg i (le_trans ha hi)
  inv_deliver s l hJ := by
    unfold deliver
    cases decode l with
    | none => exact hJ
    | some r => exact intact_callback hJ r
  bad_deliver s l hb := by
    unfold deliver
    cases decode l with
    | none => exact hb
    | some r => exact damaged_callback hb r
  inv_setBuf _ _ := Iff.rfl
  good_setBuf _ _ := Iff.rfl

/-- Two states that are the same up to the record buffer, or both damaged. -/
def Agree (S : ℕ) (s t : State) : Prop :=
  (t.Undamaged S ∧ ∃ b, s = t.setBuf b) ∨ (¬ t.Undamaged S ∧ ¬ s.Undamaged S)

/-- **`StoreRead` delivers the records of the store**, unless the delivery
touches the store. -/
theorem storeRead_agree {flash₀ : ℕ → Byte} {s t : State} (h : Agree u.storeStart.toNat s t)
    (hs : s.Intact u.storeStart.toNat flash₀) :
    (storeRead m u s).Intact u.storeStart.toNat flash₀ ∧
      Agree u.storeStart.toNat (storeRead m u s) (runRecords m (storeRecords u flash₀) t) := by
  by_cases hu : s.Undamaged u.storeStart.toNat
  · obtain ⟨h₁, h₂⟩ := readFlash_sim (g := u.region) (reader_delivers m) (reader_keeps m u flash₀)
      hs hu
    refine ⟨h₁, ?_⟩
    rw [deliverAll_eq] at h₂
    rcases h with ⟨-, b, rfl⟩ | ⟨-, h⟩
    · rw [runRecords_setBuf] at h₂
      rcases h₂ with ⟨hg, b', hb'⟩ | ⟨hb₁, hb₂⟩
      · exact Or.inl ⟨hg, b', hb'⟩
      · exact Or.inr ⟨hb₁, hb₂⟩
    · exact absurd hu h
  · -- what is damaged stays damaged
    have hbad : (storeRead m u s).Intact u.storeStart.toNat flash₀ ∧
        ¬ (storeRead m u s).Undamaged u.storeStart.toNat := by
      have hd := reader_delivers m
      have hk := reader_keeps m u flash₀
      simp only [storeRead, readFlash]
      split
      · exact importPages_bad hd hk _ _ _ _ ((hk.inv_setBuf _ _).2 hs)
          (fun h => hu ((hk.good_setBuf _ _).1 h))
      · exact ⟨hs, hu⟩
    refine ⟨hbad.1, Or.inr ⟨?_, hbad.2⟩⟩
    have ht : ¬ t.Undamaged u.storeStart.toNat := by
      rcases h with ⟨hg, b, rfl⟩ | ⟨h, -⟩
      · exact absurd hg hu
      · exact h
    exact runRecords_inv (P := fun s => ¬ s.Undamaged u.storeStart.toNat) _
      (fun r _ s hs => damaged_callback hs r) t ht

theorem Agree.refl (hs : s.Undamaged S) : Agree S s s := Or.inl ⟨hs, s.buf, rfl⟩

/-- What looks at nothing of the buffer keeps two states together. -/
theorem Agree.map {s t : State} (h : Agree S s t) {F : State → State}
    (hF : ∀ s b, F (s.setBuf b) = (F s).setBuf b)
    (hbad : ∀ s, ¬ s.Undamaged S → ¬ (F s).Undamaged S) : Agree S (F s) (F t) := by
  rcases h with ⟨-, b, rfl⟩ | ⟨ht, hs⟩
  · rw [hF]
    by_cases hu : (F t).Undamaged S
    · exact Or.inl ⟨hu, b, rfl⟩
    · exact Or.inr ⟨hu, hu⟩
  · exact Or.inr ⟨hbad t ht, hbad s hs⟩

/-- In the search and the compare pass no flash operation is performed. -/
theorem runRecords_ops (rs : List StoreRecord) (h : s.op ≠ .write) :
    (runRecords m rs s).ops = s.ops ∧ (runRecords m rs s).flash = s.flash ∧
      (runRecords m rs s).op = s.op := by
  refine runRecords_inv (P := fun s' => s'.ops = s.ops ∧ s'.flash = s.flash ∧ s'.op = s.op) rs
    (fun r _ s' hs' => ?_) s ⟨rfl, rfl, rfl⟩
  obtain ⟨h₁, h₂, h₃⟩ := hs'
  rcases callback_flash (m := m) r s' with ⟨h₄, h₅⟩ | ⟨data, -, hw, -⟩
  · exact ⟨h₅.trans h₁, h₄.trans h₂, (callback_op r s').trans h₃⟩
  · exact absurd (h₃ ▸ hw) h

theorem undamaged_erasePages_of (n : ℕ) (pg : ℕ) (h : ¬ s.Undamaged S) (S' : ℕ) :
    ¬ (erasePages S' n pg s).Undamaged S :=
  erasePages_inv (P := fun s => ¬ s.Undamaged S)
    (fun _ _ hs hu => hs (State.undamaged_perform.1 hu).1) n pg s h

theorem undamaged_of_ops {t : State} (h : s.ops = t.ops) : s.Undamaged S ↔ t.Undamaged S := by
  rw [State.Undamaged, State.Undamaged, h]

theorem Agree.eq_setBuf {s t : State} (h : Agree S s t) (ht : t.Undamaged S) : ∃ b,
    s = t.setBuf b :=
  h.elim (fun h => h.2) fun h => absurd ht h.1

/-! ## `Main` over the records of the store -/

/-- `Main` over a list of records. -/
def mainRecords (m : Comparator) (rs : List StoreRecord) (u : UICR) (flash : ℕ → Byte) : State :=
  mainWith (runRecords m rs) u (State.boot flash)

theorem boot_undamaged (flash : ℕ → Byte) : (State.boot flash).Undamaged S := by
  intro o ho
  simp [State.boot] at ho

section Passes

variable {t : State} {rs : List StoreRecord} {flash₀ : ℕ → Byte}

theorem searchPass_agree (flash₀ : ℕ → Byte) (h : Agree u.storeStart.toNat s t)
    (hs : s.Intact u.storeStart.toNat flash₀) :
    (searchPass (storeRead m u) s).Intact u.storeStart.toNat flash₀ ∧
      Agree u.storeStart.toNat (searchPass (storeRead m u) s)
        (searchPass (runRecords m (storeRecords u flash₀)) t) :=
  storeRead_agree (s := { s with op := .search })
    (h.map (F := fun s => { s with op := .search }) (fun _ _ => rfl) fun _ h => h) hs

theorem comparePass_agree (h : Agree u.storeStart.toNat s t)
    (hs : s.Intact u.storeStart.toNat flash₀) :
    (comparePass (storeRead m u) s).Intact u.storeStart.toNat flash₀ ∧
      Agree u.storeStart.toNat (comparePass (storeRead m u) s)
        (comparePass (runRecords m (storeRecords u flash₀)) t) :=
  storeRead_agree (s := { s with op := .compare, pages := mapClearAll s.pages })
    (h.map (F := fun s => { s with op := .compare, pages := mapClearAll s.pages })
      (fun _ _ => rfl) fun _ h => h) hs

theorem writePass_agree (h : Agree u.storeStart.toNat s t)
    (hs : s.Intact u.storeStart.toNat flash₀) :
    Agree u.storeStart.toNat (writePass (storeRead m u) s)
      (writePass (runRecords m (storeRecords u flash₀)) t) :=
  (storeRead_agree (s := { s with op := .write })
    (h.map (F := fun s => { s with op := .write }) (fun _ _ => rfl) fun _ h => h) hs).2

theorem searchPass_ops (rs : List StoreRecord) : (searchPass (runRecords m rs) s).ops = s.ops :=
  (runRecords_ops rs (s := { s with op := .search }) Op.noConfusion).1

theorem searchPass_flash : (searchPass (runRecords m rs) s).flash = s.flash :=
  (runRecords_ops rs (s := { s with op := .search }) Op.noConfusion).2.1

theorem comparePass_ops : (comparePass (runRecords m rs) s).ops = s.ops :=
  (runRecords_ops rs (s := { s with op := .compare, pages := mapClearAll s.pages })
    Op.noConfusion).1

end Passes

/-- The search pass finds what it finds in the records of the store. -/
theorem searchPass_eq (m : Comparator) (u : UICR) (flash : ℕ → Byte) :
    ∃ b, searchPass (storeRead m u) (State.boot flash) =
      (searchPass (runRecords m (storeRecords u flash)) (State.boot flash)).setBuf b :=
  (searchPass_agree flash (Agree.refl (boot_undamaged flash)) fun _ _ _ => rfl).2.eq_setBuf
    ((undamaged_of_ops (searchPass_ops _)).2 (boot_undamaged flash))

/-- **`Main` does what it does on the records of the store**, for as long as
no flash operation touches the store; and if one does, one does on the
records too. -/
theorem main_refines (m : Comparator) (u : UICR) (flash : ℕ → Byte) :
    Agree u.storeStart.toNat (main m u flash) (mainRecords m (storeRecords u flash) u flash) := by
  have hboot := boot_undamaged (S := u.storeStart.toNat) flash
  unfold main mainRecords mainWith
  by_cases hbad : u.Bad
  · rw [if_pos hbad, if_pos hbad]
    exact Agree.refl hboot
  rw [if_neg hbad, if_neg hbad]
  -- the search pass
  have ⟨hi₁, ha₁⟩ := searchPass_agree (m := m) flash (Agree.refl hboot) fun _ _ _ => rfl
  have hu₁ : (searchPass (runRecords m (storeRecords u flash)) (State.boot flash)).Undamaged
      u.storeStart.toNat := (undamaged_of_ops (searchPass_ops _)).2 hboot
  generalize searchPass (storeRead m u) (State.boot flash) = s₁ at *
  generalize searchPass (runRecords m (storeRecords u flash)) (State.boot flash) = t₁ at *
  have hf : s₁.SearchFails ↔ t₁.SearchFails := by
    obtain ⟨b, rfl⟩ := ha₁.eq_setBuf hu₁
    exact Iff.rfl
  simp only [hf]
  split
  · exact ha₁
  -- the compare pass
  have ⟨hi₂, ha₂⟩ := comparePass_agree (m := m) ha₁ hi₁
  have hu₂ : (comparePass (runRecords m (storeRecords u flash)) t₁).Undamaged
      u.storeStart.toNat := (undamaged_of_ops comparePass_ops).2 hu₁
  generalize comparePass (storeRead m u) s₁ = s₂ at *
  generalize comparePass (runRecords m (storeRecords u flash)) t₁ = t₂ at *
  have hf₂ : s₂.hung = t₂.hung ∧ s₂.pages = t₂.pages := by
    obtain ⟨b, rfl⟩ := ha₂.eq_setBuf hu₂
    exact ⟨rfl, rfl⟩
  simp only [hf₂.1, hf₂.2]
  split_ifs
  · exact ha₂
  · exact ha₂
  -- the erase loop and the write pass
  · refine writePass_agree (ha₂.map (erasePages_setBuf _ _) fun s h =>
      undamaged_erasePages_of _ _ h _) ?_
    exact erasePages_inv (fun s pg h => h.perform (.erase pg)) _ _ _ hi₂

end Loader

end AntTracer
