import AntTracer.Record.Format

/-!
# The packing round trip

Any list of fields that fits the buffer comes back from it. The lemmas of
`Pack` speak of positions; here the position after a list of fields is
counted in bits (`fieldWords_eq`): 26 in the first word, and 31 in every
further one.
-/

namespace AntTracer

/-! ## The words a list of fields takes -/

/-- Beyond the first word a position is inside a word: a further word is
opened for a bit that goes into it. -/
theorem endPos_ptr_lt (ns : List ℕ) (idx₀ idx : ℕ) {ptr : ℕ} (hp : ptr ≤ 31)
    (h : idx₀ < idx → ptr < 31) (hlt : idx₀ < (endPos ns idx ptr).1) :
    (endPos ns idx ptr).2 < 31 := by
  induction ns generalizing idx ptr with
  | nil => exact h hlt
  | cons n ns ih =>
    refine ih _ (posPtr_le n hp) (fun hpos => ?_) hlt
    by_cases hn : n ≤ ptr
    · rw [posIdx_of_le hn] at hpos
      rw [posPtr_of_le hn]
      have := h hpos
      omega
    · unfold posPtr
      omega

/-- **The number of words** a list of fields needs, after the 26 bits of the
first one. -/
theorem fieldWords_eq (ns : List ℕ) : fieldWords ns = (ns.sum - rtShift + 30) / 31 + 1 := by
  have hcount := endPos_count ns 0 rtShift
  have hle := endPos_ptr_le ns 0 (show rtShift ≤ 31 by decide)
  have hlt := endPos_ptr_lt ns 0 0 (show rtShift ≤ 31 by decide)
    fun h => absurd h (lt_irrefl 0)
  have hmono := endPos_mono ns 0 rtShift
  simp only [fieldWords, rtShift] at *
  omega

/-- The fields fit the buffer. -/
theorem endPos_lt_bufferSize {ns : List ℕ} (h : ns.sum ≤ 26 + 31 * 39) :
    (endPos ns 0 rtShift).1 < bufferSize := by
  have hwords := fieldWords_eq ns
  simp only [fieldWords, rtShift, bufferSize] at *
  omega

/-! ## The round trip -/

/-- What a run of `wr` calls after `wrNew` leaves, and a run of `rd` calls
makes of it. -/
structure RoundTrip (ty : Word) (fs : List (ℕ × Word)) (b : Buffer) : Prop where
  /-- the words used exist -/
  room : (wrFields fs (wrNew ty b)).bufferIndex < bufferSize
  /-- every word after the first has its top bit clear -/
  clear : ∀ k, 1 ≤ k → k ≤ (wrFields fs (wrNew ty b)).bufferIndex →
    ((wrFields fs (wrNew ty b)).buffer k).msb = false
  /-- the first word is a start word, of the type given -/
  start : ((wrFields fs (wrNew ty b)).buffer 0).msb = true ∧
    recordType ((wrFields fs (wrNew ty b)).buffer 0) = ty &&& rtMask
  /-- and its type bits are the ones `wrNew` wrote -/
  type : (wrFields fs (wrNew ty b)).buffer 0 >>> rtShift = (wrNew ty b).buffer 0 >>> rtShift
  /-- each field is read back, reduced to its width -/
  values : (rdFields (fs.map Prod.fst) (wrFields fs (wrNew ty b)).rewind).1.map BitVec.toNat =
    fs.map fun f => f.2.toNat % 2 ^ f.1
  /-- and no read runs past the words used -/
  limit : ∀ k ≤ fs.length,
    (rdFields ((fs.map Prod.fst).take k) (wrFields fs (wrNew ty b)).rewind).2.bufferLimit ≠ 0

/-- A prefix of the fields ends no later than all of them. -/
theorem endPos_take_le (ns : List ℕ) (k idx ptr : ℕ) :
    (endPos (ns.take k) idx ptr).1 ≤ (endPos ns idx ptr).1 := by
  induction ns generalizing k idx ptr with
  | nil => rw [List.take_nil]
  | cons n ns ih =>
    cases k with
    | zero => exact le_endPos (n :: ns) idx ptr
    | succ k => exact ih k _ _

/-- **The round trip of bit packing**, for every list of widths and values
that fits the buffer. -/
theorem roundTrip (ty : Word) {fs : List (ℕ × Word)} (b : Buffer)
    (h32 : ∀ f ∈ fs, 1 ≤ f.1 ∧ f.1 ≤ 32) (hsum : (fs.map Prod.fst).sum ≤ 26 + 31 * 39) :
    RoundTrip ty fs b := by
  have hroom := endPos_lt_bufferSize hsum
  obtain ⟨hstart, htype, hclear, hindex⟩ := wrFields_wrNew fs ty b hroom
  have hspec := wrFields_spec fs (wrNew ty b) (show rtShift ≤ 31 by decide) hroom
  refine ⟨hindex ▸ hroom, fun k h₁ h₂ => ?_, ⟨isStart_iff_msb.1 hstart, htype⟩,
    hspec.2.2.2.symm, ?_, fun k _ => ?_⟩
  · exact Bool.eq_false_iff.2 fun hmsb => hclear k h₁ h₂ (isStart_iff_msb.2 hmsb)
  · have hread := rdFields_wrFields fs (wrNew ty b) (wrFields fs (wrNew ty b)).rewind
      (show rtShift ≤ 31 by decide) (fun f hf => (h32 f hf).2) rfl rfl hroom
      (by rw [Buffer.rewind, hindex]; exact Nat.lt_succ_self _) (AgreeAbove.refl _ _ _)
    rw [hread, List.map_map]
    exact List.map_congr_left fun f hf => toNat_and_mask (h32 f hf).2 f.2
  · have hle := endPos_take_le (fs.map Prod.fst) k 0 rtShift
    rw [rdFields_limit _ _ (Nat.succ_pos _), if_pos]
    · exact Nat.succ_ne_zero _
    · simp only [Buffer.rewind]
      omega

/-- A field to the end of the first word, one within the next, one over its
end, and one to the end of the word after that. -/
theorem roundTrip_four :
    RoundTrip rtConfig [(26, 0xffffffff#32), (20, 0x12345#32), (32, 0xdeadbeef#32), (10, 0x3ff#32)]
      Buffer.init :=
  roundTrip rtConfig Buffer.init (by decide) (by decide)

end AntTracer
