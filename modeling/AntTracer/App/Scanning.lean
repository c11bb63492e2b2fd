import AntTracer.Record.Checked
import AntTracer.App.Start
import AntTracer.Loader.Image

/-!
# The scans of the two programs

`importRecord` of the application and of the boot loader, with every access to
the record buffer checked. So both are scans in the sense of `Checked`, and
safe on any contents of the flash (`scans_safe`). A record counts as complete
if it has the words that the bits of its fields need.
-/

namespace AntTracer

namespace App

/-! ## The application -/

/-- The `RT_CONFIG` case of `importRecord`, checked. -/
def rdConfigChecked (b : Buffer) : Option (Config × Buffer) := do
  let r ← Checked.rdFields (List.replicate configWords 32) b
  some (configOf r.1, r.2)

/-- The first `switch` of `importRecord`, checked. -/
def importFieldsChecked (ty : Word) (b : Buffer) (st : Staging) : Option (Buffer × Staging) :=
  if ty = rtSequence then do
    let r ← Checked.rd rtShift b
    some (r.2, { st with sequence := r.1 })
  else if ty = rtConfig then do
    let r ← rdConfigChecked b
    some (r.2, { st with config := r.1 })
  else if ty = rtSuHdr then do
    let r ← Checked.rdSuInfo b
    some (r.2, { st with su := st.su.setSui r.1 })
  else if ty = rtSuData then do
    let r ← Checked.rdSuData b
    some (r.2, { st with su := st.su.setSud r.1 })
  else if ty = rtSuExec then do
    let r ← Checked.rdSuExec b
    some (r.2, { st with su := st.su.setSux r.1 })
  else some (b, st)

/-- `importRecord` up to the hand-over to the handlers, checked. -/
def importLogChecked (s : Log) : Option Log := do
  let w ← Checked.load s.buf.buffer 0
  let ty := recordType w
  let r ← importFieldsChecked ty s.buf.rewind s.staging
  some
    { s with
      buf := r.1
      staging := r.2
      accepted :=
        if r.1.bufferLimit = 0 ∨ ty = rtSequence then s.accepted else s.accepted ++ [s.buf.words] }

/-- `importRecord`, checked. -/
def importRecordChecked (ofConfig : Bool) (s : Store) : Option Store := do
  let w ← Checked.load s.log.buf.buffer 0
  let ty := recordType w
  let log ← importLogChecked s.log
  let s := { s with log := log }
  some
    (if s.log.buf.bufferLimit = 0 then s
    else if ty = rtConfig ∧ ofConfig = true then
      if s.log.staging.config.confCRC = configCRC s.log.staging.config then
        storeCallbackConfiguration s.log.staging.config s
      else s
    else s)

theorem importFieldsChecked_eq (ty : Word) {b : Buffer} (st : Staging)
    (h : Checked.Readable b) :
    importFieldsChecked ty b st = some (importFields ty b st) := by
  have hconfig : rdConfigChecked b = some (rdConfig b) := by
    rw [rdConfigChecked, Checked.rdFields_eq _ h]
    rfl
  unfold importFieldsChecked importFields
  rw [Checked.rd_eq _ h, hconfig, Checked.rdSuInfo_eq h, Checked.rdSuData_eq h,
    Checked.rdSuExec_eq h]
  split_ifs <;> rfl

theorem importLogChecked_eq {s : Log} (h : s.buf.bufferIndex < bufferSize) :
    importLogChecked s = some (importRecord s) := by
  rw [importLogChecked, Checked.load_eq (show 0 < bufferSize by decide)]
  simp only [Option.bind_eq_bind, Option.bind_some,
    importFieldsChecked_eq _ _ (Checked.readable_rewind h)]
  rfl

theorem importRecordChecked_eq (ofConfig : Bool) :
    Checked.Imports (storeReader ofConfig) (importRecordChecked ofConfig) := by
  intro s hs
  have hlog : importLogChecked s.log = some (importRecord s.log) := importLogChecked_eq hs
  rw [importRecordChecked, Checked.load_eq (show 0 < bufferSize by decide), hlog]
  rfl

/-- **A record is complete** for the application if it has the words that its
fields need. -/
theorem importRecord_complete (ofConfig : Bool) {s : Store}
    (h : s.log.buf.bufferIndex < bufferSize) :
    (Store.importRecord ofConfig s).log.buf.bufferLimit ≠ 0 ↔
      ((typeWidths (recordType (s.log.buf.buffer 0))).sum - 26 + 30) / 31 + 1 ≤
        s.log.buf.bufferIndex + 1 := by
  obtain ⟨l, hl⟩ := exists_holds h
  -- the handler leaves the buffer to the reads
  have hbuf : (Store.importRecord ofConfig s).log.buf = (importRecord s.log).buf := by
    rw [Store.importRecord]
    dsimp only
    split_ifs <;> try rfl
    rw [storeCallbackConfiguration]
    split <;> rfl
  have hlimit := (importFields_rewind (recordType (s.log.buf.buffer 0)) s.log.staging hl).2
  rw [hbuf, importRecord, Ne, hlimit, not_not, fieldWords_eq, hl.1]

end App

/-! ## The boot loader -/

namespace Loader

/-- The handlers of the boot loader, as `importRecord` calls them. They may do
anything, to the flash as well, but they return. -/
structure Handlers where
  /-- `StoreCallbackSoftwareUpdateInfo` -/
  info : SuInfo → State → State
  /-- `StoreCallbackSoftwareUpdateChunk` -/
  chunk : SuData → State → State
  /-- `StoreCallbackSoftwareUpdateExecute` -/
  exec : SuExec → State → State

/-- The boot loader's own. -/
def handlers (m : Comparator) : Handlers :=
  ⟨storeCallbackSoftwareUpdateInfo, storeCallbackSoftwareUpdateChunk m,
    storeCallbackSoftwareUpdateExecute⟩

variable (h : Handlers)

/-- `importRecord`. -/
def importRecordWith (s : State) : State :=
  let ty := recordType (s.buf.buffer 0)
  let b := s.buf.rewind
  if ty = rtSuHdr then
    let sui := rdSuInfo b
    let s := { s with buf := sui.2 }
    if sui.2.bufferLimit = 0 then s else h.info sui.1 s
  else if ty = rtSuData then
    let sud := rdSuData b
    let s := { s with buf := sud.2 }
    if sud.2.bufferLimit = 0 then s else h.chunk sud.1 s
  else if ty = rtSuExec then
    let sux := rdSuExec b
    let s := { s with buf := sux.2 }
    if sux.2.bufferLimit = 0 then s else h.exec sux.1 s
  else { s with buf := b }

/-- The boot loader as a reader of the store, whatever its handlers are. -/
def readerWith : Reader State := { reader stdCompare with importRecord := importRecordWith h }

/-- As long as its handlers return, the boot loader is one of these. -/
theorem importRecord_eq_with (m : Comparator) {s : State} (hs : s.hung = false) :
    importRecord m s = importRecordWith (handlers m) s := by
  simp only [importRecord, importRecordWith, handlers, hs, Bool.false_eq_true, if_false]

/-- `importRecord`, checked. -/
def importRecordChecked (s : State) : Option State := do
  let w ← Checked.load s.buf.buffer 0
  let ty := recordType w
  let b := s.buf.rewind
  if ty = rtSuHdr then do
    let sui ← Checked.rdSuInfo b
    let s := { s with buf := sui.2 }
    some (if sui.2.bufferLimit = 0 then s else h.info sui.1 s)
  else if ty = rtSuData then do
    let sud ← Checked.rdSuData b
    let s := { s with buf := sud.2 }
    some (if sud.2.bufferLimit = 0 then s else h.chunk sud.1 s)
  else if ty = rtSuExec then do
    let sux ← Checked.rdSuExec b
    let s := { s with buf := sux.2 }
    some (if sux.2.bufferLimit = 0 then s else h.exec sux.1 s)
  else some { s with buf := b }

theorem importRecordChecked_eq : Checked.Imports (readerWith h) (importRecordChecked h) := by
  intro s hs
  have hread : Checked.Readable s.buf.rewind := Checked.readable_rewind hs
  change _ = some (importRecordWith h s)
  unfold importRecordChecked importRecordWith
  simp only [Checked.load_eq (show 0 < bufferSize by decide), Checked.rdSuInfo_eq hread,
    Checked.rdSuData_eq hread, Checked.rdSuExec_eq hread, Option.bind_eq_bind, Option.bind_some]
  by_cases h₁ : recordType (s.buf.buffer 0) = rtSuHdr
  · rw [if_pos h₁, if_pos h₁]
  rw [if_neg h₁, if_neg h₁]
  by_cases h₂ : recordType (s.buf.buffer 0) = rtSuData
  · rw [if_pos h₂, if_pos h₂]
  rw [if_neg h₂, if_neg h₂]
  by_cases h₃ : recordType (s.buf.buffer 0) = rtSuExec
  · rw [if_pos h₃, if_pos h₃]
  · rw [if_neg h₃, if_neg h₃]

/-- The widths of the fields `importRecord` of the boot loader reads. -/
def typeWidths (ty : Word) : List ℕ :=
  if ty = rtSuHdr then suInfoWidths
  else if ty = rtSuData then suDataWidths
  else if ty = rtSuExec then suExecWidths
  else []

theorem handlers_info_buf (m : Comparator) (info : SuInfo) (s : State) :
    ((handlers m).info info s).buf = s.buf := by
  simp only [handlers, storeCallbackSoftwareUpdateInfo]
  split
  · rfl
  · cases s.op with
    | search =>
      dsimp only
      split <;> rfl
    | compare => rfl
    | write => rfl

theorem handlers_chunk_buf (m : Comparator) (data : SuData) (s : State) :
    ((handlers m).chunk data s).buf = s.buf := by
  simp only [handlers, storeCallbackSoftwareUpdateChunk]
  split
  · rfl
  · cases s.op with
    | search => rfl
    | compare =>
      cases m s.compares data s.flash with
      | none => rfl
      | some r =>
        dsimp only
        split <;> rfl
    | write =>
      cases m s.compares data s.flash with
      | none => rfl
      | some r =>
        dsimp only
        split <;> rfl

theorem handlers_exec_buf (m : Comparator) (exec : SuExec) (s : State) :
    ((handlers m).exec exec s).buf = s.buf := by
  simp only [handlers, storeCallbackSoftwareUpdateExecute]
  cases s.op with
  | search =>
    dsimp only
    split <;> rfl
  | compare => rfl
  | write => rfl

/-- What the reads leave of the buffer, the handlers do not change. -/
theorem importRecordWith_buf (m : Comparator) (s : State) :
    (importRecordWith (handlers m) s).buf =
      if recordType (s.buf.buffer 0) = rtSuHdr then (rdSuInfo s.buf.rewind).2
      else if recordType (s.buf.buffer 0) = rtSuData then (rdSuData s.buf.rewind).2
      else if recordType (s.buf.buffer 0) = rtSuExec then (rdSuExec s.buf.rewind).2
      else s.buf.rewind := by
  unfold importRecordWith
  dsimp only
  split
  · split
    · rfl
    · exact handlers_info_buf m _ _
  split
  · split
    · rfl
    · exact handlers_chunk_buf m _ _
  split
  · split
    · rfl
    · exact handlers_exec_buf m _ _
  · rfl

/-- **A record is complete** for the boot loader if it has the words that its
fields need. -/
theorem importRecord_complete (m : Comparator) {s : State} (hs : s.buf.bufferIndex < bufferSize) :
    (importRecordWith (handlers m) s).buf.bufferLimit ≠ 0 ↔
      ((typeWidths (recordType (s.buf.buffer 0))).sum - 26 + 30) / 31 + 1 ≤
        s.buf.bufferIndex + 1 := by
  obtain ⟨l, hl⟩ := exists_holds hs
  have hne : l ≠ [] := by
    rintro rfl
    exact absurd hl.1 (by simp)
  have hlimit : ∀ {α : Type} {f : Buffer → α × Buffer} {ns : List ℕ} {g : List Word → α},
      ReadsAs f ns g → ((f s.buf.rewind).2.bufferLimit ≠ 0 ↔
        (ns.sum - 26 + 30) / 31 + 1 ≤ s.buf.bufferIndex + 1) := by
    intro _ _ _ _ hf
    rw [(hf.rewind hl).2, Ne, hf.limit_eq_zero_iff hne, not_not, fieldWords_eq, hl.1]
  rw [importRecordWith_buf, typeWidths]
  -- a record of any other type has no fields to read, so one word will do
  split
  · exact hlimit rdSuInfo_reads
  split
  · exact hlimit rdSuData_reads
  split
  · exact hlimit rdSuExec_reads
  · simp only [Buffer.rewind, List.sum_nil]
    omega

end Loader

/-! ## Both -/

/-- A scan ends with every access in bounds, has the result of the scan
without checks, and visits the pages between the oldest and the newest once
each. -/
def SafeScan {σ : Type} (R : Reader σ) (importRecord : σ → Option σ) (g : Region) (N : ℕ) (s : σ) :
    Prop :=
  ∃ visited, Checked.readFlash R importRecord g s = some (visited, readFlash R g s) ∧
    Checked.Visits g N (R.word s) visited

/-- **The flash scan is safe on any contents**: that of the application, with
or without its handler, and that of the boot loader, whatever its handlers do.
And a record is taken as complete when it has the words its fields need: one
for the first 26 bits, and one for every 31 bits more. -/
theorem scans_safe :
    (∀ (ofConfig : Bool) (s : App.Store),
      SafeScan (App.storeReader ofConfig) (App.importRecordChecked ofConfig) App.storeRegion
        App.storePages s) ∧
    (∀ (h : Loader.Handlers) (u : Loader.UICR) (N : ℕ) (s : Loader.State), u.Paged N →
      SafeScan (Loader.readerWith h) (Loader.importRecordChecked h) u.region N s) ∧
    (∀ (ofConfig : Bool) (s : App.Store), s.log.buf.bufferIndex < bufferSize →
      ((App.Store.importRecord ofConfig s).log.buf.bufferLimit ≠ 0 ↔
        ((App.typeWidths (recordType (s.log.buf.buffer 0))).sum - 26 + 30) / 31 + 1 ≤
          s.log.buf.bufferIndex + 1)) ∧
    ∀ (m : Loader.Comparator) (s : Loader.State), s.buf.bufferIndex < bufferSize →
      ((Loader.importRecordWith (Loader.handlers m) s).buf.bufferLimit ≠ 0 ↔
        ((Loader.typeWidths (recordType (s.buf.buffer 0))).sum - 26 + 30) / 31 + 1 ≤
          s.buf.bufferIndex + 1) :=
  ⟨fun ofConfig s =>
      Checked.readFlash_eq (App.importRecordChecked_eq ofConfig) App.storeRegion_paged s,
    fun h _ _ s hu => Checked.readFlash_eq (Loader.importRecordChecked_eq h) hu.region s,
    fun ofConfig _ hs => App.importRecord_complete ofConfig hs,
    fun m _ hs => Loader.importRecord_complete m hs⟩

/-- A boot loader with 62 pages of store, on a flash whose bytes count up, and
the application on one whose words do. -/
theorem scans_safe_counting :
    SafeScan (Loader.readerWith (Loader.handlers Loader.stdCompare))
        (Loader.importRecordChecked (Loader.handlers Loader.stdCompare))
        (Loader.UICR.region ⟨0x40000#32, 0x7e000#32⟩) 62
        (Loader.State.boot fun a => BitVec.ofNat 8 a) ∧
      SafeScan (App.storeReader true) (App.importRecordChecked true) App.storeRegion
        App.storePages (App.Store.off fun a => BitVec.ofNat 32 (a <<< 16)) :=
  ⟨scans_safe.2.1 _ _ _ _ ⟨by decide, by decide, by decide⟩, scans_safe.1 _ _⟩

end AntTracer
