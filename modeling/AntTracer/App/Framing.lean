import AntTracer.App.Start
import AntTracer.Loader.Main

/-!
# From the writer to both readers

The records `StoreSuperLoop` formats, with sequence records between them, are
read back one for one: by the importer of the application, and by that of the
boot loader (`framing`). Fields that are narrower than a word, and addresses
counted in chunks, come back reduced.
-/

namespace AntTracer

namespace App

/-! ## What comes back -/

/-- The low `n` bits of a word. -/
def lowBits (n : ℕ) (w : Word) : Word := BitVec.ofNat 32 (w.toNat % 2 ^ n)

/-- An address rounded down to a chunk, and reduced to `n` bits. -/
def chunkAddress (n : ℕ) (w : Word) : Word := BitVec.ofNat 32 (w.toNat / 64 * 64 % 2 ^ n)

/-- A header as it is read back. -/
def reducedInfo (i : SuInfo) : SuInfo :=
  ⟨lowBits 20 i.sequence, i.version, chunkAddress 20 i.start, chunkAddress 20 i.stop⟩

/-- A chunk as it is read back. -/
def reducedData (d : SuData) : SuData := ⟨lowBits 20 d.sequence, chunkAddress 19 d.address, d.data⟩

/-- An execute record as it is read back. -/
def reducedExec (x : SuExec) : SuExec := ⟨lowBits 20 x.sequence, x.version⟩

theorem and_mask_eq {n : ℕ} (h : n < 32) (w : Word) : w &&& mask n = lowBits n w := by
  apply BitVec.eq_of_toNat_eq
  have hlt : w.toNat % 2 ^ n < 2 ^ 32 := (Nat.mod_le _ _).trans_lt w.isLt
  rw [toNat_and_mask (by omega), lowBits, BitVec.toNat_ofNat, Nat.mod_eq_of_lt hlt]

theorem chunkAddress_eq {n : ℕ} (h : n ≤ 26) (w : Word) :
    ((w >>> oqSuChunkShift) &&& mask n) <<< oqSuChunkShift = chunkAddress (n + 6) w := by
  apply BitVec.eq_of_toNat_eq
  have hw := w.isLt
  have hfield : ((w >>> oqSuChunkShift) &&& mask n).toNat = w.toNat / 64 % 2 ^ n := by
    rw [toNat_and_mask (by omega), BitVec.toNat_ushiftRight, Nat.shiftRight_eq_div_pow]
    rfl
  have hle := Nat.mod_le (w.toNat / 64) (2 ^ n)
  rw [toNat_shiftLeft_chunk (hfield ▸ Nat.mod_lt _ (Nat.two_pow_pos n)) h, hfield, chunkAddress,
    BitVec.toNat_ofNat, Nat.pow_add, show (2 : ℕ) ^ 6 = 64 from rfl, Nat.mul_mod_mul_right,
      Nat.mul_comm]
  exact (Nat.mod_eq_of_lt (by omega)).symm

theorem readAs_header (i : SuInfo) (b : Buffer) :
    readAs rdSuInfo (recordWords rtSuHdr (suInfoFields i) b) = some (reducedInfo i) := by
  rw [readAs_suInfoFields, and_mask_eq (by decide), chunkAddress_eq (by decide),
    chunkAddress_eq (by decide)]
  rfl

theorem readAs_chunk {d : SuData} (h : d.data.length = oqSuChunk) (b : Buffer) :
    readAs rdSuData (recordWords rtSuData (suDataFields d) b) = some (reducedData d) := by
  rw [readAs_suDataFields h, and_mask_eq (by decide), chunkAddress_eq (by decide)]
  rfl

theorem readAs_execute (x : SuExec) (b : Buffer) :
    readAs rdSuExec (recordWords rtSuExec (suExecFields x) b) = some (reducedExec x) := by
  rw [readAs_suExecFields, and_mask_eq (by decide)]
  rfl

/-! ## What the application's importer hands over -/

/-- What `importRecord` has for a handler. -/
inductive Imported
  | config (c : Config)
  | info (i : SuInfo)
  | chunk (d : SuData)
  | exec (x : SuExec)

/-- A record as the application reads it back. -/
def Rec.imported : Rec → Imported
  | .config c => .config c
  | .header i => .info (reducedInfo i)
  | .chunk d _ => .chunk (reducedData d)
  | .execute x => .exec (reducedExec x)

/-- The second `switch` of `importRecord`: what there is for the handlers,
unless the record was too short. -/
def handedOver (s : Log) : Option Imported :=
  let ty := recordType (s.buf.buffer 0)
  if s.buf.bufferLimit = 0 then none
  else if ty = rtConfig then some (.config s.staging.config)
  else if ty = rtSuHdr then some (.info s.staging.su.sui)
  else if ty = rtSuData then some (.chunk s.staging.su.sud)
  else if ty = rtSuExec then some (.exec s.staging.su.sux)
  else none

/-- What a raw record hands over. -/
def handedOf (l : List Word) : Option Imported :=
  let ty := typeOf l
  if ty = rtConfig then (readAs rdConfig l).map .config
  else if ty = rtSuHdr then (readAs rdSuInfo l).map .info
  else if ty = rtSuData then (readAs rdSuData l).map .chunk
  else if ty = rtSuExec then (readAs rdSuExec l).map .exec
  else none

/-- The reads of a chunk make a whole one. -/
theorem length_rdSuData (b : Buffer) : (rdSuData b).1.data.length = oqSuChunk := by
  rw [rdSuData]
  simp only [List.length_map, length_rdFields, List.length_replicate]

/-- Reading moves the position alone. -/
theorem rdFields_buffer (ns : List ℕ) : ∀ b : Buffer, (rdFields ns b).2.buffer = b.buffer := by
  induction ns with
  | nil => exact fun b => rfl
  | cons n ns ih =>
    intro b
    rw [rdFields]
    exact (ih _).trans rfl

theorem importFields_buffer (ty : Word) (b : Buffer) (st : Staging) :
    (importFields ty b st).1.buffer = b.buffer := by
  unfold importFields
  split
  · rfl
  split
  · exact rdFields_buffer _ b
  split
  · rfl
  split
  · exact (rdFields_buffer _ _).trans rfl
  split <;> rfl

/-- **What is handed over depends on the record's words alone.** -/
theorem handedOver_importRecord {s : Log} {l : List Word} (h : s.buf.Holds (some l)) :
    handedOver (importRecord s) = handedOf l := by
  have hpos : 0 < l.length := by have := h.1; omega
  have hty : recordType (s.buf.buffer 0) = typeOf l := by
    rw [h.2.2 0 hpos, typeOf, List.getD_eq_getElem _ _ hpos]
  have hbuf : (importRecord s).buf = (importFields (typeOf l) s.buf.rewind s.staging).1 := by
    rw [importRecord, hty]
  have hstaging : (importRecord s).staging =
    (importFields (typeOf l) s.buf.rewind s.staging).2 := by
    rw [importRecord, hty]
  have hbuffer : (importRecord s).buf.buffer = s.buf.buffer := by
    rw [hbuf, importFields_buffer]
    rfl
  rw [handedOver, hbuffer, hty, hbuf, hstaging, handedOf]
  by_cases h₁ : typeOf l = rtConfig
  · simp only [h₁, importFields, show rtConfig ≠ rtSequence by decide, if_false, if_true,
      ← rdConfig_reads.readAs_rewind h]
    split <;> rfl
  by_cases h₂ : typeOf l = rtSuHdr
  · simp only [h₂, importFields, show rtSuHdr ≠ rtSequence by decide,
      show rtSuHdr ≠ rtConfig by decide, if_false, if_true, Union.sui_setSui,
      ← rdSuInfo_reads.readAs_rewind h]
    split <;> rfl
  by_cases h₃ : typeOf l = rtSuData
  · simp only [h₃, importFields, show rtSuData ≠ rtSequence by decide,
      show rtSuData ≠ rtConfig by decide, show rtSuData ≠ rtSuHdr by decide, if_false, if_true,
      Union.sud_setSud _ (length_rdSuData _), ← rdSuData_reads.readAs_rewind h]
    split <;> rfl
  by_cases h₄ : typeOf l = rtSuExec
  · simp only [h₄, importFields, show rtSuExec ≠ rtSequence by decide,
      show rtSuExec ≠ rtConfig by decide, show rtSuExec ≠ rtSuHdr by decide,
      show rtSuExec ≠ rtSuData by decide, if_false, if_true, Union.sux_setSux,
      ← rdSuExec_reads.readAs_rewind h]
    split <;> rfl
  · simp only [if_neg h₁, if_neg h₂, if_neg h₃, if_neg h₄, ite_self]

/-- The application's importer, and all it had for its handlers. -/
def appImporter (ofConfig : Bool) : Reader (Store × List Imported) :=
  (storeReader ofConfig).noting fun s => (handedOver s.log).toList

theorem appImporter_delivers (ofConfig : Bool) : (appImporter ofConfig).Delivers
    fun l p => (p.1.deliver ofConfig l, p.2 ++ (handedOf l).toList) := by
  refine (storeReader_delivers ofConfig).noting fun s l hl => ?_
  have hlog : (Store.importRecord ofConfig s).log = importRecord s.log := by
    rw [Store.importRecord]
    dsimp only
    split_ifs <;> try rfl
    rw [storeCallbackConfiguration]
    split <;> rfl
  change (handedOver (Store.importRecord ofConfig s).log).toList = _
  rw [hlog, handedOver_importRecord hl]

/-! ## Records with sequence records between them -/

/-- A record to be written: what the buffer held before, and `sequence` if a
sequence record follows. -/
structure Piece where
  record : Rec
  before : Buffer
  sequence : Option {q : Word // (q + 1#32).toNat < 2 ^ 26 - 1}

/-- The words written. -/
def Piece.words (p : Piece) : List Word :=
  let b := wrFields p.record.fields (wrNew p.record.type p.before)
  match p.sequence with
  | none => b.words
  | some q => (wrSeq q b).1.words

/-- The raw records among them. -/
def Piece.frames (p : Piece) : List (List Word) :=
  recordWords p.record.type p.record.fields p.before ::
    (p.sequence.map fun q => [sequenceWord (q.1 + 1#32)]).toList

theorem Piece.flatten_frames (p : Piece) : p.frames.flatten = p.words := by
  have hrec := p.record.isRecord p.before
  rw [Piece.frames, Piece.words]
  cases p.sequence with
  | none => simp [recordWords]
  | some q =>
    have hlen : (wrFields p.record.fields (wrNew p.record.type p.before)).bufferIndex + 1 <
      bufferSize := by
      have := hrec.short
      rwa [recordWords, Buffer.length_words] at this
    obtain ⟨hw, -⟩ := words_wrSeq (q := q.1) hlen
    simp only [Option.map_some, Option.toList_some, List.flatten_cons, List.flatten_nil,
      List.append_nil]
    rw [hw]
    rfl

theorem Piece.isFrame (p : Piece) :
    ∀ f ∈ p.frames, Frames.IsFrame IsStart erasedWord bufferSize f := by
  intro f hf
  rcases List.mem_cons.1 hf with rfl | hf
  · exact (p.record.isRecord p.before).frame
  · cases hp : p.sequence with
    | none => simp [hp] at hf
    | some q =>
      obtain rfl : f = [sequenceWord (q.1 + 1#32)] := by simpa [hp] using hf
      refine ⟨by simp, isStart_sequenceWord _, fun he => ?_, nofun, by simp⟩
      have hq := q.2
      have := toNat_sequenceWord (q.1 + 1#32)
      rw [show sequenceWord (q.1 + 1#32) = erasedWord from he] at this
      simp only [erasedWord, BitVec.toNat_ofNat] at this
      omega

/-- The frames of the words of some pieces, and a blank. -/
theorem frames_pieces (ps : List Piece) :
    Frames.frames IsStart erasedWord bufferSize none (ps.flatMap Piece.words ++ [erasedWord]) =
      ps.flatMap Piece.frames := by
  have hwords : ps.flatMap Piece.words = (ps.flatMap Piece.frames).flatten := by
    induction ps with
    | nil => rfl
    | cons p ps ih =>
      rw [List.flatMap_cons, List.flatMap_cons, List.flatten_append, p.flatten_frames, ih]
  rw [hwords, Frames.frames_flatten_blank isStart_erasedWord]
  intro f hf
  obtain ⟨p, -, hf⟩ := List.mem_flatMap.1 hf
  exact p.isFrame f hf

/-- The cases of `importRecord` in the application, by type. -/
theorem handedOf_of_type (l : List Word) :
    (typeOf l = rtConfig → handedOf l = (readAs rdConfig l).map .config) ∧
      (typeOf l = rtSuHdr → handedOf l = (readAs rdSuInfo l).map .info) ∧
      (typeOf l = rtSuData → handedOf l = (readAs rdSuData l).map .chunk) ∧
      (typeOf l = rtSuExec → handedOf l = (readAs rdSuExec l).map .exec) := by
  refine ⟨fun h => ?_, fun h => ?_, fun h => ?_, fun h => ?_⟩ <;> simp only [handedOf, h] <;> rfl

/-- **The application reads a record back.** -/
theorem Piece.handedOf_frames (p : Piece) :
    p.frames.flatMap (fun l => (handedOf l).toList) = [p.record.imported] := by
  have hseq : ((p.sequence.map fun q => [sequenceWord (q.1 + 1#32)]).toList).flatMap
      (fun l => (handedOf l).toList) = [] := by
    cases p.sequence with
    | none => rfl
    | some q =>
      have hty : typeOf [sequenceWord (q.1 + 1#32)] = rtSequence := recordType_sequenceWord _
      simp only [Option.map_some, Option.toList_some, List.flatMap_cons, List.flatMap_nil,
        List.append_nil, handedOf, hty]
      rfl
  have hrec : handedOf (recordWords p.record.type p.record.fields p.before) =
    some p.record.imported := by
    obtain ⟨hconfig, hinfo, hchunk, hexec⟩ :=
      handedOf_of_type (recordWords p.record.type p.record.fields p.before)
    have hty := p.record.typeOf_words p.before
    cases hr : p.record with
    | config c =>
      rw [hr] at hty hconfig
      rw [hconfig hty, Rec.type, Rec.fields, readAs_config]
      rfl
    | header i =>
      rw [hr] at hty hinfo
      rw [hinfo hty, Rec.type, Rec.fields, readAs_header]
      rfl
    | chunk d full =>
      rw [hr] at hty hchunk
      rw [hchunk hty, Rec.type, Rec.fields, readAs_chunk full]
      rfl
    | execute x =>
      rw [hr] at hty hexec
      rw [hexec hty, Rec.type, Rec.fields, readAs_execute]
      rfl
  rw [Piece.frames, List.flatMap_cons, hseq, hrec]
  rfl

/-- A record as the boot loader reads it back, which knows nothing of
configurations. -/
def Rec.forLoader : Rec → Option Loader.StoreRecord
  | .config _ => none
  | .header i => some (.info (reducedInfo i))
  | .chunk d _ => some (.chunk (reducedData d))
  | .execute x => some (.exec (reducedExec x))

/-- The cases of `importRecord` in the boot loader, by type. -/
theorem decode_of_type (l : List Word) :
    (typeOf l = rtConfig → Loader.decode l = none) ∧
      (typeOf l = rtSuHdr → Loader.decode l = (readAs rdSuInfo l).map .info) ∧
      (typeOf l = rtSuData → Loader.decode l = (readAs rdSuData l).map .chunk) ∧
      (typeOf l = rtSuExec → Loader.decode l = (readAs rdSuExec l).map .exec) := by
  refine ⟨fun h => ?_, fun h => ?_, fun h => ?_, fun h => ?_⟩ <;>
    (rw [typeOf] at h; simp only [Loader.decode, h]; rfl)

/-- **The boot loader reads a record back.** -/
theorem Piece.decode_frames (p : Piece) :
    p.frames.filterMap Loader.decode = p.record.forLoader.toList := by
  have hseq : ((p.sequence.map fun q => [sequenceWord (q.1 + 1#32)]).toList).filterMap
      Loader.decode = [] := by
    cases p.sequence with
    | none => rfl
    | some q =>
      have hty : recordType ([sequenceWord (q.1 + 1#32)].getD 0 0#32) = rtSequence :=
        recordType_sequenceWord _
      have hnone : Loader.decode [sequenceWord (q.1 + 1#32)] = none := by
        rw [Loader.decode, hty]
        rfl
      exact List.filterMap_cons_none hnone
  have hrec : Loader.decode (recordWords p.record.type p.record.fields p.before) =
    p.record.forLoader := by
    have hty := p.record.typeOf_words p.before
    obtain ⟨hconfig, hinfo, hchunk, hexec⟩ :=
      decode_of_type (recordWords p.record.type p.record.fields p.before)
    cases hr : p.record with
    | config c =>
      rw [hr] at hty hconfig
      exact hconfig hty
    | header i =>
      rw [hr] at hty hinfo
      rw [hinfo hty, Rec.type, Rec.fields, readAs_header]
      rfl
    | chunk d full =>
      rw [hr] at hty hchunk
      rw [hchunk hty, Rec.type, Rec.fields, readAs_chunk full]
      rfl
    | execute x =>
      rw [hr] at hty hexec
      rw [hexec hty, Rec.type, Rec.fields, readAs_execute]
      rfl
  rw [Piece.frames, List.filterMap_cons, hseq, hrec]
  cases p.record.forLoader <;> rfl

theorem decode_pieces (ps : List Piece) : (ps.flatMap Piece.frames).filterMap Loader.decode =
    ps.filterMap fun p => p.record.forLoader := by
  induction ps with
  | nil => rfl
  | cons p ps ih =>
    rw [List.flatMap_cons, List.filterMap_append, p.decode_frames, List.filterMap_cons, ih]
    cases p.record.forLoader <;> rfl

/-! ## Both readers -/

/-- **From the writer to both readers.** Feed the words of any records, with
sequence records after any of them, and one erased word. The application's
importer has exactly these records for its handlers, in order. The boot
loader's does what its call backs do, called with exactly those of a software
update, in order. -/
theorem framing (ps : List Piece) :
    (∀ (ofConfig : Bool) (s : Store),
      (importWords (appImporter ofConfig) (ps.flatMap Piece.words ++ [erasedWord])
        (importReset (appImporter ofConfig) (s, []))).2 = ps.map fun p => p.record.imported) ∧
    ∀ (m : Loader.Comparator) (s : Loader.State), ∃ b,
      importWords (Loader.reader m) (ps.flatMap Piece.words ++ [erasedWord])
        (importReset (Loader.reader m) s) =
      (Loader.runRecords m (ps.filterMap fun p => p.record.forLoader) s).setBuf b := by
  refine ⟨fun ofConfig s => ?_, fun m s => ?_⟩
  · obtain ⟨b, hb, -⟩ := importWords_spec (appImporter_delivers ofConfig)
      (ps.flatMap Piece.words ++ [erasedWord]) (p := none)
      (s := importReset (appImporter ofConfig) (s, [])) rfl
    rw [hb, frames_pieces, deliverAll_noting]
    change [] ++ (ps.flatMap Piece.frames).flatMap (fun l => (handedOf l).toList) = _
    rw [List.nil_append, List.flatMap_assoc]
    simp only [Piece.handedOf_frames]
    exact List.map_eq_flatMap.symm
  · obtain ⟨b, hb, -⟩ := importWords_spec (Loader.reader_delivers m)
      (ps.flatMap Piece.words ++ [erasedWord]) (p := none)
      (s := importReset (Loader.reader m) s) rfl
    refine ⟨b, ?_⟩
    rw [hb, frames_pieces, Loader.deliverAll_eq, decode_pieces]
    rw [importReset]
    change (Loader.runRecords m _ (s.setBuf _)).setBuf b = _
    rw [Loader.runRecords_setBuf]

end App

end AntTracer
