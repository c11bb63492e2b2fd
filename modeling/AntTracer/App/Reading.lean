import AntTracer.App.Disk

/-!
# Reading the log at start up

What `importRecord` does with a raw record depends on the record's words
alone: it is accepted if it has all the words the fields of its type need, and
it is no sequence record. So the records accepted at start up are the frames
of the tape that pass this test.
-/

namespace AntTracer

namespace App

/-! ## Accepting a record -/

/-- The widths of the fields `importRecord` reads for a type. -/
def typeWidths (ty : Word) : List ℕ :=
  if ty = rtSequence then [rtShift]
  else if ty = rtConfig then configWidths
  else if ty = rtSuHdr then suInfoWidths
  else if ty = rtSuData then suDataWidths
  else if ty = rtSuExec then suExecWidths
  else []

/-- The type of a raw record. -/
abbrev typeOf (l : List Word) : Word := recordType (l.getD 0 0#32)

/-- The record has the words its fields need, and is no sequence record. -/
def Accepts (l : List Word) : Prop :=
  typeOf l ≠ rtSequence ∧ fieldWords (typeWidths (typeOf l)) ≤ l.length

instance : DecidablePred Accepts := fun l =>
  inferInstanceAs (Decidable (typeOf l ≠ rtSequence ∧
    fieldWords (typeWidths (typeOf l)) ≤ l.length))

/-- The sequence case reads one field. -/
theorem rdSequence_reads : ReadsAs (rd rtShift) [rtShift] (fun vs => vs.getD 0 0#32) :=
  ⟨fun _ => rfl, fun _ => rfl⟩

/-- **The reads of `importRecord`** put the same values into the staging area
as reads of the raw record, and run past its end if it is too short. -/
theorem importFields_rewind (ty : Word) (st : Staging) {b : Buffer} {l : List Word}
    (h : b.Holds (some l)) :
    (importFields ty b.rewind st).2 = (importFields ty (bufferOf l) st).2 ∧
      ((importFields ty b.rewind st).1.bufferLimit = 0 ↔
        ¬ fieldWords (typeWidths ty) ≤ l.length) := by
  have hne : l ≠ [] := by
    rintro rfl
    exact absurd h.1 (by simp)
  have hlimit : ∀ {α : Type} {f : Buffer → α × Buffer} {ns : List ℕ} {g : List Word → α},
      ReadsAs f ns g →
      ((f b.rewind).2.bufferLimit = 0 ↔ ¬ fieldWords ns ≤ l.length) := by
    intro _ _ _ _ hf
    rw [(hf.rewind h).2]
    exact hf.limit_eq_zero_iff hne
  unfold importFields typeWidths
  by_cases h₁ : ty = rtSequence
  · simp only [if_pos h₁]
    exact ⟨by rw [(rdSequence_reads.rewind h).1], hlimit rdSequence_reads⟩
  simp only [if_neg h₁]
  by_cases h₂ : ty = rtConfig
  · simp only [if_pos h₂]
    exact ⟨by rw [(rdConfig_reads.rewind h).1], hlimit rdConfig_reads⟩
  simp only [if_neg h₂]
  by_cases h₃ : ty = rtSuHdr
  · simp only [if_pos h₃]
    exact ⟨by rw [(rdSuInfo_reads.rewind h).1], hlimit rdSuInfo_reads⟩
  simp only [if_neg h₃]
  by_cases h₄ : ty = rtSuData
  · simp only [if_pos h₄]
    exact ⟨by rw [(rdSuData_reads.rewind h).1], hlimit rdSuData_reads⟩
  simp only [if_neg h₄]
  by_cases h₅ : ty = rtSuExec
  · simp only [if_pos h₅]
    exact ⟨by rw [(rdSuExec_reads.rewind h).1], hlimit rdSuExec_reads⟩
  simp only [if_neg h₅]
  -- a record of no known type has no fields
  have hpos := List.length_pos_of_ne_nil hne
  have hlen : b.rewind.bufferLimit = l.length := h.1.symm
  have hfields : fieldWords [] = 1 := rfl
  rw [hlen, hfields]
  exact ⟨trivial, by omega⟩

/-- What the log does with a raw record. -/
def deliver (l : List Word) (s : Log) : Log :=
  { s with
    staging := (importFields (typeOf l) (bufferOf l) s.staging).2
    accepted := if Accepts l then s.accepted ++ [l] else s.accepted }

theorem words_of_holds {b : Buffer} {l : List Word} (h : b.Holds (some l)) : b.words = l := by
  refine List.ext_getElem (by rw [Buffer.length_words, h.1]) fun i h₁ h₂ => ?_
  rw [Buffer.getElem_words]
  exact h.2.2 i h₂

theorem importRecord_eq {s : Log} {l : List Word} (h : s.buf.Holds (some l)) :
    ∃ b, importRecord s = logReader.setBuf (deliver l s) b := by
  have hpos : 0 < l.length := by have := h.1; omega
  have hty : s.buf.buffer 0 = l.getD 0 0#32 := by
    rw [h.2.2 0 hpos, List.getD_eq_getElem _ _ hpos]
  obtain ⟨h₁, h₂⟩ := importFields_rewind (typeOf l) s.staging h
  refine ⟨(importFields (typeOf l) s.buf.rewind s.staging).1, ?_⟩
  rw [importRecord, hty, words_of_holds h]
  simp only [logReader, deliver, h₁]
  congr 1
  by_cases hacc : Accepts l
  · rw [if_pos hacc, if_neg fun hc => hc.elim (fun hc => h₂.1 hc hacc.2) hacc.1]
  · rw [if_neg hacc, if_pos ?_]
    by_cases ht : typeOf l = rtSequence
    · exact Or.inr ht
    · exact Or.inl (h₂.2 fun hc => hacc ⟨ht, hc⟩)

theorem logReader_delivers : logReader.Delivers deliver :=
  ⟨fun _ _ h => importRecord_eq h, fun _ _ _ => rfl⟩

/-! ## All records -/

/-- Delivery leaves all but the staging area and the history. -/
theorem deliverAll_eq (ls : List (List Word)) : ∀ s : Log, ∃ st,
    deliverAll deliver ls s = { s with staging := st, accepted := s.accepted ++ ls.filter Accepts }
      := by
  induction ls with
  | nil => exact fun s => ⟨s.staging, by simp [deliverAll]⟩
  | cons l ls ih =>
    intro s
    obtain ⟨st, hst⟩ := ih (deliver l s)
    refine ⟨st, hst.trans ?_⟩
    by_cases hacc : Accepts l <;> simp [deliver, hacc]

/-- The reads leave the flash alone. -/
theorem logReader_keeps (flash : ℕ → Word) :
    logReader.Keeps deliver storeRegion.start flash (fun _ => True) (fun s => s.flash = flash) :=
  ⟨fun _ h _ _ _ => congrFun h _, fun _ _ h => h, fun _ _ h => absurd trivial h,
    fun _ _ => Iff.rfl, fun _ _ => Iff.rfl⟩

/-- **What `readFlash` leaves**: all but the staging area, the buffer and the
history of what it accepted. -/
theorem readFlash_eq (s : Log) : ∃ st b,
    (readFlash logReader storeRegion s).1 =
      { s with
        staging := st
        buf := b
        accepted := s.accepted ++ (rawRecords storeRegion s.flash).filter Accepts } := by
  obtain ⟨-, ⟨-, b, hb⟩ | ⟨hbad, -⟩⟩ :=
    readFlash_sim logReader_delivers (logReader_keeps s.flash) (s := s) rfl trivial
  · obtain ⟨st, hst⟩ := deliverAll_eq (rawRecords storeRegion s.flash) s
    exact ⟨st, b, by rw [hb, hst]; rfl⟩
  · exact absurd trivial hbad

/-- The write pointer `readFlash` finds. -/
theorem readFlash_fst (s : Log) :
    (readFlash logReader storeRegion s).2 =
      if (findBounds storeRegion s.flash).newp ≠ 0 then
        (backScan storeRegion s.flash (findBounds storeRegion s.flash).newp pageWords,
          (findBounds storeRegion s.flash).newq)
      else (0, 0) := by
  obtain ⟨st, b, h⟩ := readFlash_eq s
  rw [readFlash] at h ⊢
  by_cases hnew : (findBounds storeRegion s.flash).newp ≠ 0
  · have hword : logReader.word s = s.flash := rfl
    simp only [hword, if_pos hnew] at h ⊢
    rw [h]
    rfl
  · have hword : logReader.word s = s.flash := rfl
    simp only [hword, if_neg hnew]

end App

end AntTracer
