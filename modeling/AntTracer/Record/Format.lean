import Mathlib.Data.List.GetD
import AntTracer.Record.Scan

/-!
# The records of the store

The payload of a record is a list of fields. This file has the records a
software update is made of, the reads `importRecord` makes for each (the same
in the application and in the boot loader), and the list of fields each is
written as. A raw record is decoded (`readAs`) by running those reads on its
words. `ReadsAs.readAs_recordWords` says that a record is decoded from what it
was written as, and `ReadsAs.readAs_isSome` that one word less is a read
error.
-/

namespace AntTracer

/-- `OQ_SU_CHUNK`: the bytes of a software update chunk. -/
abbrev oqSuChunk : ℕ := 64

/-- `OQ_SU_CHUNK_SHIFT`. -/
abbrev oqSuChunkShift : ℕ := 6

/-- `SuInfo_t`: a software update header. -/
structure SuInfo where
  /-- sequence ID this record was stored with -/
  sequence : Word
  /-- software update version -/
  version : Word
  /-- software update start address -/
  start : Word
  /-- software update end address (+1) -/
  stop : Word
  deriving DecidableEq

/-- `SuData_t`: a software update chunk. -/
structure SuData where
  /-- sequence ID this record was stored with -/
  sequence : Word
  /-- where the chunk goes -/
  address : Word
  /-- its bytes -/
  data : List Byte
  deriving DecidableEq

/-- `SuExec_t`: a software update execute record. -/
structure SuExec where
  /-- sequence ID this record was stored with -/
  sequence : Word
  /-- software update version -/
  version : Word
  deriving DecidableEq

/-! ## The reads of `importRecord` -/

/-- The `RT_SU_HDR` case. -/
def rdSuInfo (b : Buffer) : SuInfo × Buffer :=
  let sequence := rd 20 b
  let version := rd 32 sequence.2
  let start := rd 14 version.2
  let stop := rd 14 start.2
  (⟨sequence.1, version.1, start.1 <<< oqSuChunkShift, stop.1 <<< oqSuChunkShift⟩, stop.2)

/-- The `RT_SU_DATA` case. -/
def rdSuData (b : Buffer) : SuData × Buffer :=
  let sequence := rd 20 b
  let address := rd 13 sequence.2
  let data := rdFields (List.replicate oqSuChunk 8) address.2
  (⟨sequence.1, address.1 <<< oqSuChunkShift, data.1.map (BitVec.setWidth 8)⟩, data.2)

/-- The `RT_SU_EXEC` case. -/
def rdSuExec (b : Buffer) : SuExec × Buffer :=
  let sequence := rd 20 b
  let version := rd 32 sequence.2
  (⟨sequence.1, version.1⟩, version.2)

/-- The buffer as `importRecord` sets it up to read what `importWord`
collected. -/
def Buffer.rewind (b : Buffer) : Buffer :=
  { b with bufferLimit := b.bufferIndex + 1, bufferIndex := 0, bufferPointer := rtShift }

/-- The buffer `importRecord` reads a raw record from. -/
def bufferOf (l : List Word) : Buffer := ⟨fun i => l.getD i 0#32, 0, l.length, rtShift⟩

/-- What a run of reads makes of a raw record, unless it runs past the
record's end. -/
def readAs {α : Type} (f : Buffer → α × Buffer) (l : List Word) : Option α :=
  if (f (bufferOf l)).2.bufferLimit = 0 then none else some (f (bufferOf l)).1

/-- A run of reads given by widths and a function of the values. -/
structure ReadsAs {α : Type} (f : Buffer → α × Buffer) (ns : List ℕ)
    (g : List Word → α) : Prop where
  value : ∀ b, (f b).1 = g (rdFields ns b).1
  limit : ∀ b, (f b).2.bufferLimit = (rdFields ns b).2.bufferLimit

theorem rdFields_append (ms ns : List ℕ) : ∀ b : Buffer,
    rdFields (ms ++ ns) b =
      ((rdFields ms b).1 ++ (rdFields ns (rdFields ms b).2).1,
        (rdFields ns (rdFields ms b).2).2) := by
  induction ms with
  | nil => intro b; rfl
  | cons m ms ih =>
    intro b
    simp only [List.cons_append, rdFields, ih]

/-- The widths of an `RT_SU_HDR` record. -/
abbrev suInfoWidths : List ℕ := [20, 32, 14, 14]

/-- The widths of an `RT_SU_DATA` record. -/
abbrev suDataWidths : List ℕ := [20, 13] ++ List.replicate oqSuChunk 8

/-- The widths of an `RT_SU_EXEC` record. -/
abbrev suExecWidths : List ℕ := [20, 32]

/-- A header from its field values. -/
def suInfoOf (vs : List Word) : SuInfo :=
  ⟨vs.getD 0 0#32, vs.getD 1 0#32, vs.getD 2 0#32 <<< oqSuChunkShift,
    vs.getD 3 0#32 <<< oqSuChunkShift⟩

/-- A chunk from its field values. -/
def suDataOf (vs : List Word) : SuData :=
  ⟨vs.getD 0 0#32, vs.getD 1 0#32 <<< oqSuChunkShift, (vs.drop 2).map (BitVec.setWidth 8)⟩

/-- An execute record from its field values. -/
def suExecOf (vs : List Word) : SuExec := ⟨vs.getD 0 0#32, vs.getD 1 0#32⟩

theorem rdSuInfo_reads : ReadsAs rdSuInfo suInfoWidths suInfoOf := ⟨fun _ => rfl, fun _ => rfl⟩

theorem rdSuData_reads : ReadsAs rdSuData suDataWidths suDataOf where
  value b := by
    rw [rdSuData, suDataWidths, rdFields_append]
    generalize List.replicate oqSuChunk 8 = ns
    rfl
  limit b := by
    rw [rdSuData, suDataWidths, rdFields_append]
    generalize List.replicate oqSuChunk 8 = ns
    rfl

theorem rdSuExec_reads : ReadsAs rdSuExec suExecWidths suExecOf := ⟨fun _ => rfl, fun _ => rfl⟩

/-! ## A raw record decides what is read -/

/-- **What `importRecord` reads depends on the raw record alone.** -/
theorem ReadsAs.rewind {α : Type} {f : Buffer → α × Buffer} {ns : List ℕ} {g : List Word → α}
    (hf : ReadsAs f ns g) {b : Buffer} {l : List Word} (h : b.Holds (some l)) :
    (f b.rewind).1 = (f (bufferOf l)).1 ∧
      (f b.rewind).2.bufferLimit = (f (bufferOf l)).2.bufferLimit := by
  obtain ⟨hlen, -, hw⟩ := h
  obtain ⟨h₁, h₂⟩ := rdFields_congr ns b.rewind (bufferOf l) rfl hlen.symm rfl
    (by simp [Buffer.rewind]) fun k hk => by
      have hk' : k < l.length := by
        simp only [Buffer.rewind] at hk
        omega
      simp only [Buffer.rewind, bufferOf, hw k hk', List.getD_eq_getElem _ _ hk']
  rw [hf.value, hf.value, hf.limit, hf.limit, h₁, h₂]
  exact ⟨rfl, rfl⟩

theorem ReadsAs.readAs_rewind {α : Type} {f : Buffer → α × Buffer} {ns : List ℕ}
    {g : List Word → α} (hf : ReadsAs f ns g) {b : Buffer} {l : List Word} (h : b.Holds (some l)) :
    (if (f b.rewind).2.bufferLimit = 0 then none else some (f b.rewind).1) = readAs f l := by
  obtain ⟨h₁, h₂⟩ := hf.rewind h
  rw [readAs, h₁, h₂]

/-- The number of words a list of fields takes. -/
def fieldWords (ns : List ℕ) : ℕ := (endPos ns 0 rtShift).1 + 1

/-- **A raw record is accepted exactly when it has the words its fields
need.** -/
theorem ReadsAs.readAs_isSome {α : Type} {f : Buffer → α × Buffer} {ns : List ℕ}
    {g : List Word → α} (hf : ReadsAs f ns g) {l : List Word} (hne : l ≠ []) :
    (readAs f l).isSome ↔ fieldWords ns ≤ l.length := by
  have hpos : 0 < l.length := List.length_pos_of_ne_nil hne
  rw [readAs, hf.limit, rdFields_limit ns (bufferOf l) hpos]
  change (if (if (endPos ns 0 rtShift).1 < l.length then l.length else 0) = 0 then none
    else some (f (bufferOf l)).1).isSome = true ↔ (endPos ns 0 rtShift).1 + 1 ≤ l.length
  by_cases h : (endPos ns 0 rtShift).1 < l.length
  · rw [if_pos h, if_neg (by omega : ¬ l.length = 0)]
    simpa using h
  · rw [if_neg h, if_pos rfl]
    simpa using h

theorem ReadsAs.limit_eq_zero_iff {α : Type} {f : Buffer → α × Buffer} {ns : List ℕ}
    {g : List Word → α} (hf : ReadsAs f ns g) {l : List Word} (hne : l ≠ []) :
    (f (bufferOf l)).2.bufferLimit = 0 ↔ ¬ fieldWords ns ≤ l.length := by
  rw [← hf.readAs_isSome hne, readAs]
  split <;> simp [*]

/-! ## The words a record is written as -/

/-- The words in the buffer. -/
def Buffer.words (b : Buffer) : List Word := (List.range (b.bufferIndex + 1)).map b.buffer

@[simp] theorem Buffer.length_words (b : Buffer) : b.words.length = b.bufferIndex + 1 := by
  simp [Buffer.words]

theorem Buffer.getElem_words {b : Buffer} {i : ℕ} (h : i < b.words.length) :
    b.words[i] = b.buffer i := by
  simp [Buffer.words]

/-- The words of a record of type `ty` with these fields, written over any
buffer. -/
def recordWords (ty : Word) (fs : List (ℕ × Word)) (b : Buffer) : List Word :=
  (wrFields fs (wrNew ty b)).words

theorem length_recordWords (ty : Word) {fs : List (ℕ × Word)} {b : Buffer}
    (h : (endPos (fs.map Prod.fst) 0 rtShift).1 < bufferSize) :
    (recordWords ty fs b).length = fieldWords (fs.map Prod.fst) := by
  rw [recordWords, Buffer.length_words, (wrFields_wrNew fs ty b h).2.2.2, fieldWords]

/-- **A record does not depend on what the buffer held before.** -/
theorem recordWords_congr (ty : Word) (fs : List (ℕ × Word)) (b b' : Buffer) :
    recordWords ty fs b = recordWords ty fs b' := by
  have hnew : (wrNew ty b).SameRecord (wrNew ty b') := ⟨rfl, rfl, fun k hk => by
    obtain rfl : k = 0 := Nat.le_zero.1 hk
    simp [wrNew]⟩
  obtain ⟨hi, -, hb⟩ := hnew.wrFields fs
  unfold recordWords Buffer.words
  rw [← hi]
  exact List.map_congr_left fun k hk => hb k (by have := List.mem_range.1 hk; omega)

/-- **A record is decoded from what it was written as**, each field reduced
to its width. -/
theorem ReadsAs.readAs_recordWords {α : Type} {f : Buffer → α × Buffer} {g : List Word → α}
    {ty : Word} (fs : List (ℕ × Word)) {b : Buffer} (hf : ReadsAs f (fs.map Prod.fst) g)
    (h : (endPos (fs.map Prod.fst) 0 rtShift).1 < bufferSize) (h32 : ∀ p ∈ fs, p.1 ≤ 32) :
    readAs f (recordWords ty fs b) = some (g (fs.map fun p => p.2 &&& mask p.1)) := by
  have hlen := length_recordWords ty (b := b) h
  have hne : recordWords ty fs b ≠ [] := by
    intro h0
    rw [h0, fieldWords, List.length_nil] at hlen
    omega
  have hsome := (hf.readAs_isSome hne).2 hlen.ge
  have hread := rdFields_wrFields fs (wrNew ty b) (bufferOf (recordWords ty fs b))
    (show rtShift ≤ 31 by decide) h32 rfl rfl h
    (by
      change (endPos (fs.map Prod.fst) 0 rtShift).1 < (recordWords ty fs b).length
      rw [hlen, fieldWords]
      omega)
    ⟨fun k hk => by
      have hk' : k < (recordWords ty fs b).length := by
        change k < (endPos (fs.map Prod.fst) 0 rtShift).1 at hk
        rw [hlen, fieldWords]
        omega
      change _ = (recordWords ty fs b).getD k 0#32
      rw [List.getD_eq_getElem _ _ hk']
      exact (Buffer.getElem_words _).symm,
    by
      have hk' : (endPos (fs.map Prod.fst) 0 rtShift).1 < (recordWords ty fs b).length := by
        rw [hlen, fieldWords]
        omega
      change _ = (recordWords ty fs b).getD (endPos (fs.map Prod.fst) 0 rtShift).1 0#32 >>> _
      rw [List.getD_eq_getElem _ _ hk']
      simp only [recordWords, Buffer.getElem_words]
      rfl⟩
  rw [readAs] at hsome ⊢
  split
  · rename_i h0
    simp [h0] at hsome
  · rw [hf.value, hread]

/-- A written record is a frame. -/
theorem isFrame_recordWords {ty : Word} (fs : List (ℕ × Word)) {b : Buffer}
    (h : (endPos (fs.map Prod.fst) 0 rtShift).1 < bufferSize) (hty : ty &&& rtMask ≠ rtSequence) :
    Frames.IsFrame IsStart erasedWord bufferSize (recordWords ty fs b) := by
  obtain ⟨hs, ht, hc, hi⟩ := wrFields_wrNew fs ty b h
  have hlen := length_recordWords ty (b := b) h
  have hne : recordWords ty fs b ≠ [] := by
    intro h0
    rw [h0, fieldWords, List.length_nil] at hlen
    omega
  have hhead : (recordWords ty fs b).head hne = (wrFields fs (wrNew ty b)).buffer 0 := by
    rw [List.head_eq_getElem]
    exact Buffer.getElem_words _
  refine ⟨hne, hhead ▸ hs, ?_, ?_, ?_⟩
  · rw [hhead]
    intro h0
    rw [h0] at ht
    exact hty (ht ▸ by decide)
  · intro w hw
    obtain ⟨i, hi', rfl⟩ := List.getElem_of_mem hw
    rw [List.getElem_tail]
    simp only [List.length_tail] at hi'
    have := Buffer.getElem_words (b := wrFields fs (wrNew ty b)) (i := i + 1)
      (by simp only [recordWords] at hi'; omega)
    simp only [recordWords, this]
    refine hc (i + 1) (by omega) ?_
    simp only [recordWords, Buffer.length_words] at hi'
    omega
  · rw [hlen, fieldWords]
    omega

/-! ## The range of a field -/

theorem rdFrom_high : ∀ (n : ℕ) (buf : ℕ → Word) (idx lim ptr bits ins : ℕ) (acc : Word),
    bits ≤ 31 * n + ptr → bits ≤ 32 → (∀ i, ins + bits ≤ i → acc.getLsbD i = false) →
    ∀ i, ins + bits ≤ i → (rdFrom n buf idx lim ptr bits ins acc).1.getLsbD i = false := by
  have hplace : ∀ (x acc : Word) (n ins m i : ℕ), n ≤ 32 → ins + n ≤ m → m ≤ i →
      acc.getLsbD i = false → (acc ||| ((x &&& mask n) <<< ins)).getLsbD i = false := by
    intro x acc n ins m i hn hm hi hacc
    rw [BitVec.getLsbD_or, hacc, BitVec.getLsbD_shiftLeft, BitVec.getLsbD_and, getLsbD_mask hn]
    simp [show ¬ i - ins < n by omega]
  intro n
  induction n with
  | zero =>
    intro buf idx lim ptr bits ins acc hn h32 hacc i hi
    rw [rdFrom_of_le (by omega)]
    exact hplace _ _ _ _ _ _ h32 le_rfl hi (hacc i hi)
  | succ n ih =>
    intro buf idx lim ptr bits ins acc hn h32 hacc i hi
    by_cases hle : bits ≤ ptr
    · rw [rdFrom_of_le hle]
      exact hplace _ _ _ _ _ _ h32 le_rfl hi (hacc i hi)
    · rw [rdFrom_of_lt (by omega)]
      refine ih _ _ _ _ _ _ _ (by omega) (by omega) (fun j hj => ?_) i (by omega)
      exact hplace _ _ _ _ (ins + bits) _ (by omega) (by omega) (by omega) (hacc j (by omega))

/-- A field of `n` bits is below `2 ^ n`. -/
theorem rd_lt {n : ℕ} (h : n ≤ 32) (b : Buffer) : (rd n b).1.toNat < 2 ^ n := by
  refine Nat.lt_pow_two_of_testBit _ fun i hi => ?_
  rw [BitVec.testBit_toNat]
  exact rdFrom_high (n + 1) b.buffer b.bufferIndex b.bufferLimit b.bufferPointer n 0 0#32 (by omega)
    h (by simp) i (by omega)

/-- An address field is a multiple of the chunk size. -/
theorem toNat_shiftLeft_chunk {w : Word} {n : ℕ} (h : w.toNat < 2 ^ n) (hn : n ≤ 26) :
    (w <<< oqSuChunkShift).toNat = 64 * w.toNat := by
  have hle : 2 ^ n ≤ 2 ^ 26 := Nat.pow_le_pow_right (by omega) hn
  rw [BitVec.toNat_shiftLeft, Nat.shiftLeft_eq]
  simp only [oqSuChunkShift]
  omega

/-! ## The records of a software update -/

/-- The fields of an `RT_SU_HDR` record. -/
def suInfoFields (i : SuInfo) : List (ℕ × Word) :=
  [(20, i.sequence), (32, i.version), (14, i.start >>> oqSuChunkShift),
    (14, i.stop >>> oqSuChunkShift)]

/-- The fields of an `RT_SU_DATA` record. -/
def suDataFields (d : SuData) : List (ℕ × Word) :=
  [(20, d.sequence), (13, d.address >>> oqSuChunkShift)] ++
    d.data.map fun b => (8, b.setWidth 32)

/-- The fields of an `RT_SU_EXEC` record. -/
def suExecFields (x : SuExec) : List (ℕ × Word) := [(20, x.sequence), (32, x.version)]

/-- The fields have room for the header. -/
structure SuInfo.Fits (i : SuInfo) : Prop where
  sequence : i.sequence.toNat < 2 ^ 20
  start_mod : i.start.toNat % oqSuChunk = 0
  start_lt : i.start.toNat < 2 ^ 20
  stop_mod : i.stop.toNat % oqSuChunk = 0
  stop_lt : i.stop.toNat < 2 ^ 20

/-- The fields have room for the chunk. -/
structure SuData.Fits (d : SuData) : Prop where
  sequence : d.sequence.toNat < 2 ^ 20
  address_mod : d.address.toNat % oqSuChunk = 0
  address_lt : d.address.toNat < 2 ^ 19
  length : d.data.length = oqSuChunk

/-- The fields have room for the execute record. -/
structure SuExec.Fits (x : SuExec) : Prop where
  sequence : x.sequence.toNat < 2 ^ 20

theorem widths_suDataFields {d : SuData} (h : d.data.length = oqSuChunk) :
    (suDataFields d).map Prod.fst = suDataWidths := by
  simp only [suDataFields, List.map_append, List.map_cons, List.map_nil, List.map_map,
    suDataWidths, Function.comp_def, List.map_const', h]

/-- The buffer has room for a header. -/
theorem suInfo_room : (endPos suInfoWidths 0 rtShift).1 < bufferSize := by decide

/-- The buffer has room for a chunk. -/
theorem suData_room : (endPos suDataWidths 0 rtShift).1 < bufferSize := by decide

/-- The buffer has room for an execute record. -/
theorem suExec_room : (endPos suExecWidths 0 rtShift).1 < bufferSize := by decide

theorem and_mask_of_lt {n : ℕ} (h : n ≤ 32) {w : Word} (hw : w.toNat < 2 ^ n) :
    w &&& mask n = w := by
  apply BitVec.eq_of_toNat_eq
  rw [toNat_and_mask h, Nat.mod_eq_of_lt hw]

/-- An address comes back from a field that is wide enough. -/
theorem address_field {n : ℕ} (h : n ≤ 26) {w : Word} (hw : w.toNat < 2 ^ (n + 6))
    (hmod : w.toNat % oqSuChunk = 0) :
    ((w >>> oqSuChunkShift) &&& mask n) <<< oqSuChunkShift = w := by
  have hlt : (w >>> oqSuChunkShift).toNat < 2 ^ n := by
    rw [BitVec.toNat_ushiftRight, Nat.shiftRight_eq_div_pow]
    exact Nat.div_lt_of_lt_mul (by rw [← Nat.pow_add, Nat.add_comm]; exact hw)
  rw [and_mask_of_lt (by omega) hlt]
  apply BitVec.eq_of_toNat_eq
  rw [toNat_shiftLeft_chunk hlt h, BitVec.toNat_ushiftRight, Nat.shiftRight_eq_div_pow]
  simp only [oqSuChunk, oqSuChunkShift] at *
  omega

theorem byte_field (x : Byte) : (x.setWidth 32 &&& mask 8).setWidth 8 = x := by
  apply BitVec.eq_of_toNat_eq
  have hx := x.isLt
  rw [BitVec.toNat_setWidth, toNat_and_mask (by decide), BitVec.toNat_setWidth]
  omega

/-- A header is read back with the low bits of its fields. -/
theorem readAs_suInfoFields (i : SuInfo) (b : Buffer) :
    readAs rdSuInfo (recordWords rtSuHdr (suInfoFields i) b) =
      some ⟨i.sequence &&& mask 20, i.version,
        ((i.start >>> oqSuChunkShift) &&& mask 14) <<< oqSuChunkShift,
        ((i.stop >>> oqSuChunkShift) &&& mask 14) <<< oqSuChunkShift⟩ := by
  rw [ReadsAs.readAs_recordWords (suInfoFields i) rdSuInfo_reads suInfo_room (by
     simp [suInfoFields])]
  change some (SuInfo.mk (i.sequence &&& mask 20) (i.version &&& mask 32)
    (((i.start >>> oqSuChunkShift) &&& mask 14) <<< oqSuChunkShift)
    (((i.stop >>> oqSuChunkShift) &&& mask 14) <<< oqSuChunkShift)) = _
  rw [and_mask_of_lt le_rfl i.version.isLt]

/-- A chunk is read back with the low bits of its fields, and its bytes. -/
theorem readAs_suDataFields {d : SuData} (h : d.data.length = oqSuChunk) (b : Buffer) :
    readAs rdSuData (recordWords rtSuData (suDataFields d) b) =
      some ⟨d.sequence &&& mask 20,
        ((d.address >>> oqSuChunkShift) &&& mask 13) <<< oqSuChunkShift, d.data⟩ := by
  have hwidths := widths_suDataFields h
  rw [ReadsAs.readAs_recordWords (suDataFields d) (hwidths ▸ rdSuData_reads)
    (hwidths ▸ suData_room) (by
      intro p hp
      have := List.mem_map_of_mem (f := Prod.fst) hp
      rw [hwidths] at this
      simp only [suDataWidths, List.mem_append, List.mem_cons, List.not_mem_nil, or_false,
        List.mem_replicate] at this
      omega)]
  have hdata : (d.data.map fun b => (b.setWidth 32 &&& mask 8 : Word)).map (BitVec.setWidth 8) =
      d.data := by
    rw [List.map_map]
    conv_rhs => rw [← List.map_id d.data]
    exact List.map_congr_left fun x _ => byte_field x
  simp only [suDataFields, List.map_append, List.map_cons, List.map_nil, List.map_map]
  change some (SuData.mk (d.sequence &&& mask 20)
    (((d.address >>> oqSuChunkShift) &&& mask 13) <<< oqSuChunkShift)
    ((d.data.map fun b => (b.setWidth 32 &&& mask 8 : Word)).map (BitVec.setWidth 8))) = _
  rw [hdata]

/-- An execute record is read back with the low bits of its number. -/
theorem readAs_suExecFields (x : SuExec) (b : Buffer) :
    readAs rdSuExec (recordWords rtSuExec (suExecFields x) b) =
      some ⟨x.sequence &&& mask 20, x.version⟩ := by
  rw [ReadsAs.readAs_recordWords (suExecFields x) rdSuExec_reads suExec_room (by
     simp [suExecFields])]
  change some (SuExec.mk (x.sequence &&& mask 20) (x.version &&& mask 32)) = _
  rw [and_mask_of_lt le_rfl x.version.isLt]

/-- **A header is read back as it was written.** -/
theorem readAs_suInfo {i : SuInfo} (h : i.Fits) (b : Buffer) :
    readAs rdSuInfo (recordWords rtSuHdr (suInfoFields i) b) = some i := by
  obtain ⟨h₁, h₂, h₃, h₄, h₅⟩ := h
  rw [readAs_suInfoFields, and_mask_of_lt (by decide) h₁, address_field (by decide) h₃ h₂,
    address_field (by decide) h₅ h₄]

/-- **A chunk is read back as it was written.** -/
theorem readAs_suData {d : SuData} (h : d.Fits) (b : Buffer) :
    readAs rdSuData (recordWords rtSuData (suDataFields d) b) = some d := by
  obtain ⟨h₁, h₂, h₃, h₄⟩ := h
  rw [readAs_suDataFields h₄, and_mask_of_lt (by decide) h₁, address_field (by decide) h₃ h₂]

/-- **An execute record is read back as it was written.** -/
theorem readAs_suExec {x : SuExec} (h : x.Fits) (b : Buffer) :
    readAs rdSuExec (recordWords rtSuExec (suExecFields x) b) = some x := by
  rw [readAs_suExecFields, and_mask_of_lt (by decide) h.sequence]

/-- The first word of a written record has its type. -/
theorem recordType_recordWords {ty : Word} (fs : List (ℕ × Word)) {b : Buffer}
    (h : (endPos (fs.map Prod.fst) 0 rtShift).1 < bufferSize) :
    recordType ((recordWords ty fs b).getD 0 0#32) = ty &&& rtMask := by
  obtain ⟨-, ht, -, -⟩ := wrFields_wrNew fs ty b h
  have hlen := length_recordWords ty (b := b) h
  rw [List.getD_eq_getElem _ _ (by rw [hlen, fieldWords]; omega)]
  simp only [recordWords, Buffer.getElem_words]
  exact ht

end AntTracer
