import AntTracer.Record.Word

/-!
# Packing fields into a record

`wrNew` and `wr` format a record in `buffer`, `rd` takes it apart again. A
position in the buffer is a word index and the number of bits still free in
that word; both functions move through positions in the same way (`posIdx`,
`posPtr`), and a field written at a position is out of the reach of every
later write (`AgreeAbove`). The round trip of a list of fields
(`rdFields_wrFields`) is assembled from those two facts.
-/

namespace AntTracer

/-- The record buffer and its content details: `buffer`, `bufferIndex`,
`bufferLimit` and `bufferPointer` of the source. -/
structure Buffer where
  /-- the words; only the first `bufferSize` exist -/
  buffer : ℕ → Word
  /-- the last word in use; `bufferSize` when there is no record -/
  bufferIndex : ℕ
  /-- the words provided to a read; `0` once the read ran past them -/
  bufferLimit : ℕ
  /-- the bits remaining in the current word -/
  bufferPointer : ℕ

/-- The buffer as the C start-up code leaves it. -/
def Buffer.init : Buffer := ⟨fun _ => 0#32, bufferSize, 0, 0⟩

/-! ## The source -/

/-- Start a new storage record in the buffer. -/
def wrNew (ty : Word) (b : Buffer) : Buffer :=
  { b with
    buffer := Function.update b.buffer 0 (recordBit ||| ((ty &&& rtMask) <<< rtShift))
    bufferIndex := 0
    bufferPointer := rtShift }

/-- `(old & ~msk) | (data & msk)`. -/
def place (old msk data : Word) : Word := (old &&& ~~~msk) ||| (data &&& msk)

/-- The loop of `wr` and what follows it; `n` bounds its rounds. -/
def wrFrom : ℕ → (ℕ → Word) → ℕ → ℕ → ℕ → Word → (ℕ → Word) × ℕ × ℕ
  | n + 1, buf, idx, ptr, bits, data =>
    if bits > ptr then
      let buf' := if ptr > 0 then Function.update buf idx (place (buf idx) (mask ptr) data) else buf
      let data' := if ptr > 0 then data >>> ptr else data
      let bits' := if ptr > 0 then bits - ptr else bits
      let idx' := if idx < bufferSize - 1 then idx + 1 else idx
      wrFrom n (Function.update buf' idx' 0#32) idx' 31 bits' data'
    else
      (Function.update buf idx (place (buf idx) (mask ptr) (data <<< (ptr - bits))), idx,
        ptr - bits)
  | 0, buf, idx, ptr, bits, data =>
    (Function.update buf idx (place (buf idx) (mask ptr) (data <<< (ptr - bits))), idx,
      ptr - bits)

/-- Write `bits` bits of `data` into the buffer. -/
def wr (bits : ℕ) (data : Word) (b : Buffer) : Buffer :=
  let r := wrFrom (bits + 1) b.buffer b.bufferIndex b.bufferPointer bits data
  { b with buffer := r.1, bufferIndex := r.2.1, bufferPointer := r.2.2 }

/-- The loop of `rd` and what follows it; `n` bounds its rounds. The result
is the data, the index, the limit and the pointer. -/
def rdFrom : ℕ → (ℕ → Word) → ℕ → ℕ → ℕ → ℕ → ℕ → Word → Word × ℕ × ℕ × ℕ
  | n + 1, buf, idx, lim, ptr, bits, ins, data =>
    if bits > ptr then
      let data' := if ptr > 0 then data ||| ((buf idx &&& mask ptr) <<< ins) else data
      let ins' := if ptr > 0 then ins + ptr else ins
      let bits' := if ptr > 0 then bits - ptr else bits
      if idx + 1 ≥ lim then rdFrom n buf 0 0 31 bits' ins' data'
      else rdFrom n buf (idx + 1) lim 31 bits' ins' data'
    else
      (data ||| (((buf idx >>> (ptr - bits)) &&& mask bits) <<< ins), idx, lim, ptr - bits)
  | 0, buf, idx, lim, ptr, bits, ins, data =>
    (data ||| (((buf idx >>> (ptr - bits)) &&& mask bits) <<< ins), idx, lim, ptr - bits)

/-- Read a field of `bits` bits from the buffer. -/
def rd (bits : ℕ) (b : Buffer) : Word × Buffer :=
  let r := rdFrom (bits + 1) b.buffer b.bufferIndex b.bufferLimit b.bufferPointer bits 0 0#32
  (r.1, { b with bufferIndex := r.2.1, bufferLimit := r.2.2.1, bufferPointer := r.2.2.2 })

/-- Append a sequence number record to the buffer; the result is the buffer
and the incremented `sequence`. -/
def wrSeq (sequence : Word) (b : Buffer) : Buffer × Word :=
  if b.bufferIndex + 1 < bufferSize then
    let sequence' := sequence + 1#32
    ({ b with
        buffer := Function.update b.buffer (b.bufferIndex + 1)
          (recordBit ||| (rtSequence <<< rtShift) ||| (sequence' &&& rdMask))
        bufferIndex := b.bufferIndex + 1 }, sequence')
  else (b, sequence)

/-- A run of `wr` calls, one for each field (width, value). -/
def wrFields (fs : List (ℕ × Word)) (b : Buffer) : Buffer :=
  fs.foldl (fun b f => wr f.1 f.2 b) b

/-- A run of `rd` calls, one for each width. -/
def rdFields : List ℕ → Buffer → List Word × Buffer
  | [], b => ([], b)
  | n :: ns, b =>
    let r := rd n b
    let rs := rdFields ns r.2
    (r.1 :: rs.1, rs.2)

/-! ## Positions -/

/-- The word index a field of `bits` bits ends in. -/
def posIdx (idx ptr bits : ℕ) : ℕ := idx + (bits - ptr + 30) / 31

/-- The bits remaining in that word after it. -/
def posPtr (ptr bits : ℕ) : ℕ := ptr + 31 * ((bits - ptr + 30) / 31) - bits

theorem posIdx_of_le {idx ptr bits : ℕ} (h : bits ≤ ptr) : posIdx idx ptr bits = idx := by
  have : bits - ptr = 0 := by omega
  simp [posIdx, this]

theorem posPtr_of_le {ptr bits : ℕ} (h : bits ≤ ptr) : posPtr ptr bits = ptr - bits := by
  have : bits - ptr = 0 := by omega
  simp [posPtr, this]

/-- Past the end of a word a field goes on in the next. -/
theorem posIdx_of_lt (idx : ℕ) {ptr bits : ℕ} (h : ptr < bits) :
    posIdx idx ptr bits = posIdx (idx + 1) 31 (bits - ptr) := by
  unfold posIdx
  omega

theorem posPtr_of_lt {ptr bits : ℕ} (h : ptr < bits) :
    posPtr ptr bits = posPtr 31 (bits - ptr) := by
  unfold posPtr
  omega

theorem le_posIdx (idx ptr bits : ℕ) : idx ≤ posIdx idx ptr bits := by
  unfold posIdx
  omega

theorem posPtr_le {ptr : ℕ} (bits : ℕ) (h : ptr ≤ 31) : posPtr ptr bits ≤ 31 := by
  unfold posPtr
  omega

/-- A position counts the bits before it. -/
theorem pos_count (idx ptr bits : ℕ) :
    31 * posIdx idx ptr bits + ptr = 31 * idx + bits + posPtr ptr bits := by
  unfold posIdx posPtr
  omega

/-! ## One field -/

theorem getLsbD_place {old msk data : Word} {i : ℕ} :
    (place old msk data).getLsbD i =
      if msk.getLsbD i then data.getLsbD i else old.getLsbD i := by
  rcases Nat.lt_or_ge i 32 with hi | hi
  · simp only [place, BitVec.getLsbD_or, BitVec.getLsbD_and, BitVec.getLsbD_not, hi, decide_true,
      Bool.true_and]
    cases msk.getLsbD i <;> simp
  · simp [BitVec.getLsbD_of_ge _ _ hi]

/-- The bits a mask covers are the new data's. -/
theorem place_and_mask {old data : Word} {n : ℕ} (h : n ≤ 32) :
    place old (mask n) data &&& mask n = data &&& mask n := by
  apply BitVec.eq_of_getLsbD_eq
  intro i hi
  rw [BitVec.getLsbD_and, BitVec.getLsbD_and, getLsbD_place, getLsbD_mask h]
  by_cases hin : i < n <;> simp [hin]

/-- The bits above the mask are kept. -/
theorem place_shiftRight {old data : Word} {n : ℕ} (h : n ≤ 32) :
    place old (mask n) data >>> n = old >>> n := by
  apply BitVec.eq_of_getLsbD_eq
  intro i hi
  rw [BitVec.getLsbD_ushiftRight, BitVec.getLsbD_ushiftRight, getLsbD_place, getLsbD_mask h]
  simp

/-- A field that fits the word is read back from where it was placed. -/
theorem place_field {old data : Word} {ptr bits : ℕ} (hb : bits ≤ ptr) (hp : ptr ≤ 31) :
    (place old (mask ptr) (data <<< (ptr - bits)) >>> (ptr - bits)) &&& mask bits =
      data &&& mask bits := by
  apply BitVec.eq_of_getLsbD_eq
  intro i hi
  rw [BitVec.getLsbD_and, BitVec.getLsbD_and, BitVec.getLsbD_ushiftRight, getLsbD_place,
    getLsbD_mask (by omega), getLsbD_mask (by omega)]
  by_cases hib : i < bits
  · have h1 : ptr - bits + i < ptr := by omega
    have h2 : ptr - bits + i < 32 := by omega
    have h3 : ¬ ptr - bits + i < ptr - bits := by omega
    have h4 : ptr - bits + i - (ptr - bits) = i := by omega
    simp only [h1, decide_true, if_true, BitVec.getLsbD_shiftLeft, h2, h3, decide_false, h4,
      Bool.not_false, Bool.true_and]
  · simp [hib]

/-- The part of a field in this word and the rest of it in the next ones
make up the field. -/
theorem field_split {data : Word} {ptr bits ins : ℕ} (hb : ptr < bits) (h32 : bits ≤ 32) :
    ((data &&& mask ptr) <<< ins) ||| (((data >>> ptr) &&& mask (bits - ptr)) <<< (ins + ptr)) =
      (data &&& mask bits) <<< ins := by
  apply BitVec.eq_of_getLsbD_eq
  intro i hi
  simp only [BitVec.getLsbD_or, BitVec.getLsbD_shiftLeft, BitVec.getLsbD_and,
    BitVec.getLsbD_ushiftRight, getLsbD_mask (by omega : ptr ≤ 32), getLsbD_mask h32,
    getLsbD_mask (by omega : bits - ptr ≤ 32)]
  by_cases h1 : i < ins
  · have : i < ins + ptr := by omega
    simp [h1, this]
  · by_cases h2 : i < ins + ptr
    · have h3 : i - ins < ptr := by omega
      have h4 : i - ins < bits := by omega
      simp [h1, h2, h3, h4, hi]
    · have h3 : ¬ i - ins < ptr := by omega
      have h4 : ptr + (i - (ins + ptr)) = i - ins := by omega
      have h5 : (i - (ins + ptr) < bits - ptr) ↔ i - ins < bits := by omega
      simp [h1, h2, h3, h4, h5, hi]

@[simp] theorem mask_zero : mask 0 = 0#32 := by decide

@[simp] theorem place_zero (old data : Word) : place old 0#32 data = old := by
  apply BitVec.eq_of_getLsbD_eq
  intro i hi
  simp [getLsbD_place]

/-- `wr` of a field that fits the current word. -/
theorem wrFrom_of_le {n : ℕ} {buf : ℕ → Word} {idx ptr bits : ℕ} {data : Word} (h : bits ≤ ptr) :
    wrFrom n buf idx ptr bits data =
      (Function.update buf idx (place (buf idx) (mask ptr) (data <<< (ptr - bits))), idx,
        ptr - bits) := by
  cases n with
  | zero => rfl
  | succ n => rw [wrFrom, if_neg (by omega)]

/-- `wr` of a field that does not: its low bits fill the word, and the rest
goes into a fresh one. -/
theorem wrFrom_of_lt {n : ℕ} {buf : ℕ → Word} {idx ptr bits : ℕ} {data : Word} (h : ptr < bits)
    (hidx : idx < bufferSize - 1) :
    wrFrom (n + 1) buf idx ptr bits data =
      wrFrom n
        (Function.update (Function.update buf idx (place (buf idx) (mask ptr) data)) (idx + 1) 0#32)
        (idx + 1) 31 (bits - ptr) (data >>> ptr) := by
  rw [wrFrom, if_pos h, if_pos hidx]
  by_cases hp : ptr > 0
  · simp only [hp, if_true]
  · obtain rfl : ptr = 0 := by omega
    simp

/-- `rd` of a field within the current word. -/
theorem rdFrom_of_le {n : ℕ} {buf : ℕ → Word} {idx lim ptr bits ins : ℕ} {data : Word}
    (h : bits ≤ ptr) :
    rdFrom n buf idx lim ptr bits ins data =
      (data ||| (((buf idx >>> (ptr - bits)) &&& mask bits) <<< ins), idx, lim, ptr - bits) := by
  cases n with
  | zero => rfl
  | succ n => rw [rdFrom, if_neg (by omega)]

/-- `rd` of a field that goes on in the next word. -/
theorem rdFrom_of_lt {n : ℕ} {buf : ℕ → Word} {idx lim ptr bits ins : ℕ} {data : Word}
    (h : ptr < bits) :
    rdFrom (n + 1) buf idx lim ptr bits ins data =
      rdFrom n buf (if idx + 1 ≥ lim then 0 else idx + 1) (if idx + 1 ≥ lim then 0 else lim) 31
        (bits - ptr) (ins + ptr) (data ||| ((buf idx &&& mask ptr) <<< ins)) := by
  rw [rdFrom, if_pos h]
  by_cases hp : ptr > 0
  · by_cases hl : idx + 1 ≥ lim <;> simp [hp, hl]
  · obtain rfl : ptr = 0 := by omega
    by_cases hl : idx + 1 ≥ lim <;> simp [hl]

/-- Two buffers agree above a position: every earlier word is the same, and
so are the bits of its word that lie above the pointer. -/
def AgreeAbove (idx ptr : ℕ) (b c : ℕ → Word) : Prop :=
  (∀ k < idx, b k = c k) ∧ b idx >>> ptr = c idx >>> ptr

theorem AgreeAbove.refl (idx ptr : ℕ) (b : ℕ → Word) : AgreeAbove idx ptr b b :=
  ⟨fun _ _ => rfl, rfl⟩

theorem AgreeAbove.trans {idx ptr : ℕ} {b c d : ℕ → Word} (h₁ : AgreeAbove idx ptr b c)
    (h₂ : AgreeAbove idx ptr c d) : AgreeAbove idx ptr b d :=
  ⟨fun k hk => (h₁.1 k hk).trans (h₂.1 k hk), h₁.2.trans h₂.2⟩

theorem AgreeAbove.symm {idx ptr : ℕ} {b c : ℕ → Word} (h : AgreeAbove idx ptr b c) :
    AgreeAbove idx ptr c b :=
  ⟨fun k hk => (h.1 k hk).symm, h.2.symm⟩

/-- Changing a word below the pointer is out of sight. -/
theorem agreeAbove_update {idx ptr : ℕ} {b : ℕ → Word} {w : Word} (h : w >>> ptr = b idx >>> ptr) :
    AgreeAbove idx ptr b (Function.update b idx w) := by
  refine ⟨fun k hk => ?_, ?_⟩
  · rw [Function.update_of_ne (by omega)]
  · rw [Function.update_self, h]

theorem ushiftRight_congr_of_le {x y : Word} {m n : ℕ} (h : x >>> m = y >>> m) (hmn : m ≤ n) :
    x >>> n = y >>> n := by
  obtain ⟨d, rfl⟩ := Nat.exists_eq_add_of_le hmn
  rw [BitVec.shiftRight_add, BitVec.shiftRight_add, h]

/-- Agreement above a later position is agreement above an earlier one. -/
theorem AgreeAbove.mono {idx ptr idx' ptr' : ℕ} {b c : ℕ → Word} (h : AgreeAbove idx' ptr' b c)
    (hle : idx < idx' ∨ idx = idx' ∧ ptr' ≤ ptr) : AgreeAbove idx ptr b c := by
  rcases hle with hlt | ⟨rfl, hp⟩
  · exact ⟨fun k hk => h.1 k (by omega), by rw [h.1 idx hlt]⟩
  · exact ⟨h.1, ushiftRight_congr_of_le h.2 hp⟩

/-- A field starts at or above where it ends. -/
theorem pos_mono (idx ptr bits : ℕ) :
    idx < posIdx idx ptr bits ∨ idx = posIdx idx ptr bits ∧ posPtr ptr bits ≤ ptr := by
  by_cases h : bits ≤ ptr
  · rw [posIdx_of_le h, posPtr_of_le h]
    omega
  · left
    unfold posIdx
    omega

/-- **What `wr` does**: it moves to the field's end position and changes
nothing above its start position. -/
theorem wrFrom_spec : ∀ (n : ℕ) (buf : ℕ → Word) (idx ptr bits : ℕ) (data : Word),
    bits ≤ 31 * n + ptr → ptr ≤ 31 → posIdx idx ptr bits < bufferSize →
    (wrFrom n buf idx ptr bits data).2 = (posIdx idx ptr bits, posPtr ptr bits) ∧
      AgreeAbove idx ptr buf (wrFrom n buf idx ptr bits data).1 := by
  intro n
  induction n with
  | zero =>
    intro buf idx ptr bits data hn hp hidx
    rw [wrFrom_of_le (by omega), posIdx_of_le (by omega), posPtr_of_le (by omega)]
    exact ⟨rfl, agreeAbove_update (place_shiftRight (by omega))⟩
  | succ n ih =>
    intro buf idx ptr bits data hn hp hidx
    by_cases hle : bits ≤ ptr
    · rw [wrFrom_of_le hle, posIdx_of_le hle, posPtr_of_le hle]
      exact ⟨rfl, agreeAbove_update (place_shiftRight (by omega))⟩
    · have hlt : ptr < bits := by omega
      have hpos := posIdx_of_lt idx hlt
      have hge := le_posIdx (idx + 1) 31 (bits - ptr)
      rw [wrFrom_of_lt hlt (by simp only [bufferSize] at *; omega)]
      obtain ⟨h₁, h₂⟩ := ih (Function.update (Function.update buf idx
        (place (buf idx) (mask ptr) data)) (idx + 1) 0#32) (idx + 1) 31 (bits - ptr)
        (data >>> ptr) (by omega) (by omega) (hpos ▸ hidx)
      refine ⟨by rw [h₁, hpos, posPtr_of_lt hlt], fun k hk => ?_, ?_⟩
      · rw [← h₂.1 k (by omega), Function.update_of_ne (by omega), Function.update_of_ne (by omega)]
      · rw [← h₂.1 idx (by omega), Function.update_of_ne (by omega), Function.update_self,
          place_shiftRight (by omega)]

/-- Read back within one word. -/
theorem rdFrom_place {m : ℕ} {buf c : ℕ → Word} {idx lim ptr bits ins : ℕ} {data acc : Word}
    (hle : bits ≤ ptr) (hp : ptr ≤ 31)
    (h : AgreeAbove idx (ptr - bits)
      (Function.update buf idx (place (buf idx) (mask ptr) (data <<< (ptr - bits)))) c) :
    rdFrom m c idx lim ptr bits ins acc =
      (acc ||| ((data &&& mask bits) <<< ins), idx, lim, ptr - bits) := by
  rw [rdFrom_of_le hle, ← h.2, Function.update_self, place_field hle hp]

/-- **A field is read back.** From any buffer that agrees with what `wr`
left, above the field's end, `rd` at the field's start returns the field. -/
theorem rdFrom_wrFrom : ∀ (n m : ℕ) (buf c : ℕ → Word) (idx lim ptr bits ins : ℕ) (data acc : Word),
    bits ≤ 31 * n + ptr → bits ≤ 31 * m + ptr → ptr ≤ 31 → bits ≤ 32 →
    posIdx idx ptr bits < bufferSize → posIdx idx ptr bits < lim →
    AgreeAbove (posIdx idx ptr bits) (posPtr ptr bits) (wrFrom n buf idx ptr bits data).1 c →
    rdFrom m c idx lim ptr bits ins acc =
      (acc ||| ((data &&& mask bits) <<< ins), posIdx idx ptr bits, lim, posPtr ptr bits) := by
  intro n
  induction n with
  | zero =>
    intro m buf c idx lim ptr bits ins data acc hn hm hp h32 hidx hlim hagree
    have hle : bits ≤ ptr := by omega
    rw [wrFrom_of_le hle, posIdx_of_le hle, posPtr_of_le hle] at hagree
    rw [rdFrom_place hle hp hagree, posIdx_of_le hle, posPtr_of_le hle]
  | succ n ih =>
    intro m buf c idx lim ptr bits ins data acc hn hm hp h32 hidx hlim hagree
    by_cases hle : bits ≤ ptr
    · rw [wrFrom_of_le hle, posIdx_of_le hle, posPtr_of_le hle] at hagree
      rw [rdFrom_place hle hp hagree, posIdx_of_le hle, posPtr_of_le hle]
    · have hlt : ptr < bits := by omega
      have hpos := posIdx_of_lt idx hlt
      have hge := le_posIdx (idx + 1) 31 (bits - ptr)
      obtain ⟨m, rfl⟩ : ∃ k, m = k + 1 := ⟨m - 1, by omega⟩
      rw [wrFrom_of_lt hlt (by simp only [bufferSize] at *; omega), hpos,
        posPtr_of_lt hlt] at hagree
      have hspec := (wrFrom_spec n (Function.update (Function.update buf idx
        (place (buf idx) (mask ptr) data)) (idx + 1) 0#32) (idx + 1) 31 (bits - ptr)
        (data >>> ptr) (by omega) (by omega) (hpos ▸ hidx)).2
      -- the word the field starts in is final once the field has left it
      have hword : c idx = place (buf idx) (mask ptr) data := by
        rw [← hagree.1 idx (by omega), ← hspec.1 idx (by omega), Function.update_of_ne (by omega),
          Function.update_self]
      rw [rdFrom_of_lt hlt, if_neg (by omega), if_neg (by omega), hword, place_and_mask (by omega),
        ih m _ c (idx + 1) lim 31 (bits - ptr) (ins + ptr) (data >>> ptr) _ (by omega) (by omega)
          (by omega) (by omega) (hpos ▸ hidx) (hpos ▸ hlim) hagree,
        BitVec.or_assoc, field_split hlt h32, hpos, posPtr_of_lt hlt]

/-! ## Reading past the end -/

/-- **Where `rd` ends.** It moves as `wr` does while the words last; past
the last of them the limit is zero, and stays so. -/
theorem rdFrom_pos : ∀ (n : ℕ) (buf : ℕ → Word) (idx lim ptr bits ins : ℕ) (acc : Word),
    bits ≤ 31 * n + ptr →
    (rdFrom n buf idx lim ptr bits ins acc).2 =
      if posIdx idx ptr bits < lim ∨ bits ≤ ptr then (posIdx idx ptr bits, lim, posPtr ptr bits)
      else (0, 0, posPtr ptr bits) := by
  intro n
  induction n with
  | zero =>
    intro buf idx lim ptr bits ins acc hn
    have hle : bits ≤ ptr := by omega
    rw [rdFrom_of_le hle, if_pos (Or.inr hle), posIdx_of_le hle, posPtr_of_le hle]
  | succ n ih =>
    intro buf idx lim ptr bits ins acc hn
    by_cases hle : bits ≤ ptr
    · rw [rdFrom_of_le hle, if_pos (Or.inr hle), posIdx_of_le hle, posPtr_of_le hle]
    · have hlt : ptr < bits := by omega
      have hge := le_posIdx (idx + 1) 31 (bits - ptr)
      rw [rdFrom_of_lt hlt, ih _ _ _ _ _ _ _ (by omega), posPtr_of_lt hlt,
        posIdx_of_lt idx hlt]
      by_cases hl : idx + 1 ≥ lim
      · -- the limit is now zero, and no index is below it
        have h0 : posIdx 0 31 (bits - ptr) = 0 ∨ ¬ bits - ptr ≤ 31 := by
          by_cases h : bits - ptr ≤ 31
          · exact Or.inl (posIdx_of_le h)
          · exact Or.inr h
        rcases h0 with h0 | h0
        · simp [hl, h0, hle]; omega
        · simp [hl, h0, hle]; omega
      · have : posIdx (idx + 1) 31 (bits - ptr) < lim ∨ bits - ptr ≤ 31 ↔
            posIdx (idx + 1) 31 (bits - ptr) < lim := by
          refine ⟨fun h => h.elim id fun h31 => ?_, Or.inl⟩
          rw [posIdx_of_le h31]
          omega
        simp only [hl, if_false, this, hle, or_false]

/-- `rd` looks at no word at or beyond the limit, the first one apart. -/
theorem rdFrom_congr : ∀ (n : ℕ) (buf buf' : ℕ → Word) (idx lim ptr bits ins : ℕ) (acc : Word),
    idx < max lim 1 → (∀ k < max lim 1, buf k = buf' k) →
    rdFrom n buf idx lim ptr bits ins acc = rdFrom n buf' idx lim ptr bits ins acc := by
  intro n
  induction n with
  | zero =>
    intro buf buf' idx lim ptr bits ins acc hidx h
    simp [rdFrom, h idx hidx]
  | succ n ih =>
    intro buf buf' idx lim ptr bits ins acc hidx h
    by_cases hle : bits ≤ ptr
    · rw [rdFrom_of_le hle, rdFrom_of_le hle, h idx hidx]
    · rw [rdFrom_of_lt (by omega), rdFrom_of_lt (by omega), h idx hidx]
      by_cases hl : idx + 1 ≥ lim
      · simp only [hl, if_true]
        exact ih _ _ _ _ _ _ _ _ (by simp) fun k hk => h k (by simp at hk; omega)
      · simp only [hl, if_false]
        exact ih _ _ _ _ _ _ _ _ (by omega) h

/-! ## Lists of fields -/

/-- The position after a list of fields. -/
def endPos : List ℕ → ℕ → ℕ → ℕ × ℕ
  | [], idx, ptr => (idx, ptr)
  | n :: ns, idx, ptr => endPos ns (posIdx idx ptr n) (posPtr ptr n)

theorem le_endPos (ns : List ℕ) (idx ptr : ℕ) : idx ≤ (endPos ns idx ptr).1 := by
  induction ns generalizing idx ptr with
  | nil => exact le_rfl
  | cons n ns ih => exact le_trans (le_posIdx idx ptr n) (ih _ _)

theorem endPos_mono (ns : List ℕ) (idx ptr : ℕ) :
    idx < (endPos ns idx ptr).1 ∨ idx = (endPos ns idx ptr).1 ∧ (endPos ns idx ptr).2 ≤ ptr := by
  induction ns generalizing idx ptr with
  | nil => exact Or.inr ⟨rfl, le_rfl⟩
  | cons n ns ih =>
    have h₁ := pos_mono idx ptr n
    have h₂ := ih (posIdx idx ptr n) (posPtr ptr n)
    simp only [endPos]
    omega

theorem endPos_ptr_le (ns : List ℕ) (idx : ℕ) {ptr : ℕ} (h : ptr ≤ 31) :
    (endPos ns idx ptr).2 ≤ 31 := by
  induction ns generalizing idx ptr with
  | nil => exact h
  | cons n ns ih => exact ih _ (posPtr_le n h)

/-- A list of fields takes the bits its widths add up to. -/
theorem endPos_count (ns : List ℕ) (idx ptr : ℕ) :
    31 * (endPos ns idx ptr).1 + ptr = 31 * idx + ns.sum + (endPos ns idx ptr).2 := by
  induction ns generalizing idx ptr with
  | nil => simp [endPos]
  | cons n ns ih =>
    have h₁ := pos_count idx ptr n
    have h₂ := ih (posIdx idx ptr n) (posPtr ptr n)
    simp only [endPos, List.sum_cons]
    omega

@[simp] theorem wr_bufferLimit (bits : ℕ) (data : Word) (b : Buffer) :
    (wr bits data b).bufferLimit = b.bufferLimit := rfl

theorem wr_spec {bits : ℕ} (data : Word) {b : Buffer} (hp : b.bufferPointer ≤ 31)
    (hidx : posIdx b.bufferIndex b.bufferPointer bits < bufferSize) :
    (wr bits data b).bufferIndex = posIdx b.bufferIndex b.bufferPointer bits ∧
      (wr bits data b).bufferPointer = posPtr b.bufferPointer bits ∧
      AgreeAbove b.bufferIndex b.bufferPointer b.buffer (wr bits data b).buffer := by
  obtain ⟨h₁, h₂⟩ := wrFrom_spec (bits + 1) b.buffer b.bufferIndex b.bufferPointer bits data
    (by omega) hp hidx
  exact ⟨congrArg Prod.fst h₁, congrArg Prod.snd h₁, h₂⟩

/-- What a run of `wr` calls does. -/
theorem wrFields_spec : ∀ (fs : List (ℕ × Word)) (b : Buffer), b.bufferPointer ≤ 31 →
    (endPos (fs.map Prod.fst) b.bufferIndex b.bufferPointer).1 < bufferSize →
    (wrFields fs b).bufferIndex = (endPos (fs.map Prod.fst) b.bufferIndex b.bufferPointer).1 ∧
      (wrFields fs b).bufferPointer = (endPos (fs.map Prod.fst) b.bufferIndex b.bufferPointer).2 ∧
      AgreeAbove b.bufferIndex b.bufferPointer b.buffer (wrFields fs b).buffer := by
  intro fs
  induction fs with
  | nil => exact fun b _ _ => ⟨rfl, rfl, AgreeAbove.refl _ _ _⟩
  | cons f fs ih =>
    intro b hp hidx
    simp only [List.map_cons, endPos] at hidx ⊢
    have hlt := lt_of_le_of_lt (le_endPos _ _ _) hidx
    obtain ⟨hi, hq, ha⟩ := wr_spec f.2 hp hlt
    obtain ⟨h₁, h₂, h₃⟩ := ih (wr f.1 f.2 b) (by rw [hq]; exact posPtr_le _ hp)
      (by rw [hi, hq]; exact hidx)
    rw [hi, hq] at h₁ h₂ h₃
    exact ⟨h₁, h₂, ha.trans (h₃.mono (pos_mono _ _ _))⟩

theorem rd_wr {bits : ℕ} (data : Word) {b c : Buffer} (hp : b.bufferPointer ≤ 31) (h32 : bits ≤ 32)
    (hci : c.bufferIndex = b.bufferIndex) (hcp : c.bufferPointer = b.bufferPointer)
    (hidx : posIdx b.bufferIndex b.bufferPointer bits < bufferSize)
    (hlim : posIdx b.bufferIndex b.bufferPointer bits < c.bufferLimit)
    (ha : AgreeAbove (posIdx b.bufferIndex b.bufferPointer bits) (posPtr b.bufferPointer bits)
      (wr bits data b).buffer c.buffer) :
    rd bits c = (data &&& mask bits,
      { c with
        bufferIndex := posIdx b.bufferIndex b.bufferPointer bits
        bufferPointer := posPtr b.bufferPointer bits }) := by
  have h := rdFrom_wrFrom (bits + 1) (bits + 1) b.buffer c.buffer b.bufferIndex c.bufferLimit
    b.bufferPointer bits 0 data 0#32 (by omega) (by omega) hp h32 hidx hlim ha
  simp only [rd, hci, hcp, h, BitVec.shiftLeft_zero, BitVec.zero_or]

/-- There is a value for each width. -/
theorem length_rdFields (ns : List ℕ) : ∀ b : Buffer, (rdFields ns b).1.length = ns.length := by
  induction ns with
  | nil => exact fun _ => rfl
  | cons n ns ih =>
    intro b
    simp only [rdFields, List.length_cons, ih]

/-- **The round trip.** Fields written in order, from a position on, are
read back in order from that position, each reduced to its width. -/
theorem rdFields_wrFields : ∀ (fs : List (ℕ × Word)) (b c : Buffer), b.bufferPointer ≤ 31 →
    (∀ f ∈ fs, f.1 ≤ 32) → c.bufferIndex = b.bufferIndex → c.bufferPointer = b.bufferPointer →
    (endPos (fs.map Prod.fst) b.bufferIndex b.bufferPointer).1 < bufferSize →
    (endPos (fs.map Prod.fst) b.bufferIndex b.bufferPointer).1 < c.bufferLimit →
    AgreeAbove (endPos (fs.map Prod.fst) b.bufferIndex b.bufferPointer).1
      (endPos (fs.map Prod.fst) b.bufferIndex b.bufferPointer).2 (wrFields fs b).buffer c.buffer →
    rdFields (fs.map Prod.fst) c = (fs.map fun f => f.2 &&& mask f.1,
      { c with
        bufferIndex := (endPos (fs.map Prod.fst) b.bufferIndex b.bufferPointer).1
        bufferPointer := (endPos (fs.map Prod.fst) b.bufferIndex b.bufferPointer).2 }) := by
  intro fs
  induction fs with
  | nil =>
    intro b c _ _ hci hcp _ _ _
    simp [rdFields, endPos, ← hci, ← hcp]
  | cons f fs ih =>
    intro b c hp h32 hci hcp hidx hlim ha
    simp only [List.map_cons, endPos] at hidx hlim ha ⊢
    have hle := le_endPos (fs.map Prod.fst) (posIdx b.bufferIndex b.bufferPointer f.1)
      (posPtr b.bufferPointer f.1)
    obtain ⟨hi, hq, -⟩ := wr_spec f.2 hp (lt_of_le_of_lt hle hidx)
    have hp' : (wr f.1 f.2 b).bufferPointer ≤ 31 := by rw [hq]; exact posPtr_le _ hp
    -- what the later fields leave of the first one
    have hrest := (wrFields_spec fs (wr f.1 f.2 b) hp' (by rw [hi, hq]; exact hidx)).2.2
    rw [hi, hq] at hrest
    have hfirst := rd_wr f.2 hp (h32 f (List.mem_cons_self ..)) hci hcp
      (lt_of_le_of_lt hle hidx) (lt_of_le_of_lt hle hlim)
      (hrest.trans (ha.mono (endPos_mono _ _ _)))
    have hnext := ih (wr f.1 f.2 b)
      { c with
        bufferIndex := posIdx b.bufferIndex b.bufferPointer f.1
        bufferPointer := posPtr b.bufferPointer f.1 } hp'
      (fun g hg => h32 g (List.mem_cons_of_mem _ hg)) hi.symm hq.symm
      (by rw [hi, hq]; exact hidx) (by rw [hi, hq]; exact hlim) (by rw [hi, hq]; exact ha)
    rw [hi, hq] at hnext
    rw [rdFields, hfirst, hnext]

/-- Once past its words, a run of reads stays there. -/
theorem rdFields_limit_zero (ns : List ℕ) : ∀ c : Buffer, c.bufferIndex = 0 → c.bufferLimit = 0 →
    (rdFields ns c).2.bufferLimit = 0 := by
  induction ns with
  | nil => exact fun c _ h => h
  | cons n ns ih =>
    intro c hi hl
    have h := rdFrom_pos (n + 1) c.buffer c.bufferIndex c.bufferLimit c.bufferPointer n 0 0#32
      (by omega)
    rw [hi, hl] at h
    apply ih
    · simp only [rd, hi, hl, h]
      split
      · rename_i hc
        exact posIdx_of_le (hc.resolve_left (Nat.not_lt_zero _))
      · rfl
    · simp only [rd, hi, hl, h]
      split <;> rfl

/-- **A read error is a record that is too short**: the limit survives a
list of fields exactly when their last word is among those provided. -/
theorem rdFields_limit (ns : List ℕ) : ∀ c : Buffer, c.bufferIndex < c.bufferLimit →
    (rdFields ns c).2.bufferLimit =
      if (endPos ns c.bufferIndex c.bufferPointer).1 < c.bufferLimit then c.bufferLimit else 0 := by
  induction ns with
  | nil =>
    intro c h
    rw [endPos, if_pos h]
    rfl
  | cons n ns ih =>
    intro c h
    have hpos := rdFrom_pos (n + 1) c.buffer c.bufferIndex c.bufferLimit c.bufferPointer n 0 0#32
      (by omega)
    have hle := le_endPos ns (posIdx c.bufferIndex c.bufferPointer n) (posPtr c.bufferPointer n)
    by_cases hin : posIdx c.bufferIndex c.bufferPointer n < c.bufferLimit ∨ n ≤ c.bufferPointer
    · rw [if_pos hin] at hpos
      have hlt : posIdx c.bufferIndex c.bufferPointer n < c.bufferLimit := by
        rcases hin with hin | hin
        · exact hin
        · rwa [posIdx_of_le hin]
      have hrec := ih (rd n c).2 (by simpa only [rd, hpos] using hlt)
      have hpos' : (rd n c).2.bufferIndex = posIdx c.bufferIndex c.bufferPointer n ∧
          (rd n c).2.bufferLimit = c.bufferLimit ∧
          (rd n c).2.bufferPointer = posPtr c.bufferPointer n := by
        simp only [rd, hpos, and_self]
      rw [hpos'.1, hpos'.2.1, hpos'.2.2] at hrec
      exact hrec
    · rw [if_neg hin] at hpos
      rw [endPos, if_neg (by omega), rdFields]
      exact rdFields_limit_zero ns _ (by simp only [rd, hpos]) (by simp only [rd, hpos])

/-- A run of reads looks at no word at or beyond the limit, the first one
apart. -/
theorem rdFields_congr (ns : List ℕ) : ∀ c c' : Buffer, c.bufferIndex = c'.bufferIndex →
    c.bufferLimit = c'.bufferLimit → c.bufferPointer = c'.bufferPointer →
    c.bufferIndex < max c.bufferLimit 1 → (∀ k < max c.bufferLimit 1, c.buffer k = c'.buffer k) →
    (rdFields ns c).1 = (rdFields ns c').1 ∧
      (rdFields ns c).2.bufferLimit = (rdFields ns c').2.bufferLimit := by
  induction ns with
  | nil => exact fun c c' _ hl _ _ _ => ⟨rfl, hl⟩
  | cons n ns ih =>
    intro c c' hi hl hp hlt hb
    have heq := rdFrom_congr (n + 1) c.buffer c'.buffer c.bufferIndex c.bufferLimit c.bufferPointer
      n 0 0#32 hlt hb
    have hpos := rdFrom_pos (n + 1) c.buffer c.bufferIndex c.bufferLimit c.bufferPointer n 0 0#32
      (by omega)
    have hrd : (rd n c).1 = (rd n c').1 ∧ (rd n c).2.bufferIndex = (rd n c').2.bufferIndex ∧
        (rd n c).2.bufferLimit = (rd n c').2.bufferLimit ∧
        (rd n c).2.bufferPointer = (rd n c').2.bufferPointer := by
      simp only [rd, ← hi, ← hl, ← hp, heq, and_self]
    have hmax : max (rd n c).2.bufferLimit 1 ≤ max c.bufferLimit 1 := by
      simp only [rd, hpos]
      split <;> simp
    have hlt' : (rd n c).2.bufferIndex < max (rd n c).2.bufferLimit 1 := by
      simp only [rd, hpos]
      split
      · rename_i hin
        rcases hin with hin | hin
        · exact lt_of_lt_of_le hin (le_max_left _ _)
        · rwa [posIdx_of_le hin]
      · simp
    obtain ⟨h₁, h₂⟩ := ih (rd n c).2 (rd n c').2 hrd.2.1 hrd.2.2.1 hrd.2.2.2 hlt'
      fun k hk => hb k (lt_of_lt_of_le hk hmax)
    exact ⟨by simp only [rdFields, hrd.1, h₁], h₂⟩

/-! ## The words of a formatted record -/

theorem isStart_iff_getLsbD {w : Word} : IsStart w ↔ w.getLsbD 31 = true := by
  rw [isStart_iff_msb, BitVec.msb_eq_getLsbD_last]

/-- Payload never reaches the top bit. -/
theorem isStart_place {old data : Word} {n : ℕ} (h : n ≤ 31) :
    IsStart (place old (mask n) data) ↔ IsStart old := by
  rw [isStart_iff_getLsbD, isStart_iff_getLsbD, getLsbD_place, getLsbD_mask (by omega)]
  simp [show ¬ 31 < n by omega]

theorem not_isStart_zero : ¬ IsStart 0#32 := by decide

/-- `wr` opens every further word with the top bit clear. -/
theorem wrFrom_not_isStart : ∀ (n : ℕ) (buf : ℕ → Word) (idx ptr bits : ℕ) (data : Word),
    bits ≤ 31 * n + ptr → ptr ≤ 31 → posIdx idx ptr bits < bufferSize →
    (∀ k, 1 ≤ k → k ≤ idx → ¬ IsStart (buf k)) →
    ∀ k, 1 ≤ k → k ≤ posIdx idx ptr bits → ¬ IsStart ((wrFrom n buf idx ptr bits data).1 k) := by
  have hfit : ∀ (buf : ℕ → Word) (idx ptr : ℕ) (data : Word), ptr ≤ 31 →
      (∀ k, 1 ≤ k → k ≤ idx → ¬ IsStart (buf k)) → ∀ k, 1 ≤ k → k ≤ idx →
      ¬ IsStart (Function.update buf idx (place (buf idx) (mask ptr) data) k) := by
    intro buf idx ptr data hp h k h1 h2
    by_cases hk : k = idx
    · subst hk
      rw [Function.update_self, isStart_place hp]
      exact h k h1 h2
    · rw [Function.update_of_ne hk]
      exact h k h1 h2
  intro n
  induction n with
  | zero =>
    intro buf idx ptr bits data hn hp hidx h k h1 h2
    rw [posIdx_of_le (by omega)] at h2
    rw [wrFrom_of_le (by omega)]
    exact hfit _ _ _ _ hp h k h1 h2
  | succ n ih =>
    intro buf idx ptr bits data hn hp hidx h k h1 h2
    by_cases hle : bits ≤ ptr
    · rw [posIdx_of_le hle] at h2
      rw [wrFrom_of_le hle]
      exact hfit _ _ _ _ hp h k h1 h2
    · have hlt : ptr < bits := by omega
      have hpos := posIdx_of_lt idx hlt
      have hge := le_posIdx (idx + 1) 31 (bits - ptr)
      rw [wrFrom_of_lt hlt (by simp only [bufferSize] at *; omega)]
      refine ih _ _ _ _ _ (by omega) (by omega) (hpos ▸ hidx) (fun j h1 h2 => ?_) k h1 (hpos ▸ h2)
      by_cases hj : j = idx + 1
      · subst hj
        rw [Function.update_self]
        exact not_isStart_zero
      · rw [Function.update_of_ne hj]
        exact hfit _ _ _ _ hp h j h1 (by omega)

theorem wrFields_not_isStart : ∀ (fs : List (ℕ × Word)) (b : Buffer), b.bufferPointer ≤ 31 →
    (endPos (fs.map Prod.fst) b.bufferIndex b.bufferPointer).1 < bufferSize →
    (∀ k, 1 ≤ k → k ≤ b.bufferIndex → ¬ IsStart (b.buffer k)) →
    ∀ k, 1 ≤ k → k ≤ (wrFields fs b).bufferIndex → ¬ IsStart ((wrFields fs b).buffer k) := by
  intro fs
  induction fs with
  | nil => exact fun b _ _ h => h
  | cons f fs ih =>
    intro b hp hidx h
    simp only [List.map_cons, endPos] at hidx
    have hlt := lt_of_le_of_lt (le_endPos _ _ _) hidx
    obtain ⟨hi, hq, -⟩ := wr_spec f.2 hp hlt
    refine ih (wr f.1 f.2 b) (by rw [hq]; exact posPtr_le _ hp) (by rw [hi, hq]; exact hidx) ?_
    rw [hi]
    exact wrFrom_not_isStart _ _ _ _ _ _ (by omega) hp hlt h

/-- The first word `wrNew` writes. -/
def startWord (ty : Word) : Word := recordBit ||| ((ty &&& rtMask) <<< rtShift)

theorem isStart_startWord (ty : Word) : IsStart (startWord ty) := by
  rw [isStart_iff_getLsbD, startWord, BitVec.getLsbD_or]
  simp [show recordBit.getLsbD 31 = true by decide]

theorem recordType_startWord (ty : Word) : recordType (startWord ty) = ty &&& rtMask := by
  apply BitVec.eq_of_getLsbD_eq
  intro i hi
  by_cases h5 : i < 5
  · have h1 : 26 + i < 32 := by omega
    have h2 : 26 + i - 26 = i := by omega
    have h3 : recordBit.getLsbD (26 + i) = false := by
      revert i; decide
    simp only [recordType, startWord, BitVec.getLsbD_and, BitVec.getLsbD_ushiftRight,
      BitVec.getLsbD_or, BitVec.getLsbD_shiftLeft, h1, h2, h3, decide_true, Bool.true_and,
      Bool.false_or, show ¬ 26 + i < 26 by omega, decide_false, Bool.not_false]
    rw [Bool.and_assoc, Bool.and_self]
  · have h0 : rtMask.getLsbD i = false := by
      revert i; decide
    simp only [recordType, BitVec.getLsbD_and, h0, Bool.and_false]

/-- Two words with the same top six bits are alike to the readers. -/
theorem isStart_congr {x y : Word} (h : x >>> rtShift = y >>> rtShift) : IsStart x ↔ IsStart y := by
  have h5 := congrArg (fun w : Word => w.getLsbD 5) h
  simp only [BitVec.getLsbD_ushiftRight] at h5
  rw [isStart_iff_getLsbD, isStart_iff_getLsbD, h5]

theorem recordType_congr {x y : Word} (h : x >>> rtShift = y >>> rtShift) :
    recordType x = recordType y := by
  rw [recordType, recordType, h]

/-- **The shape of a formatted record**: a first word of its type, and only
continuation words after it. -/
theorem wrFields_wrNew (fs : List (ℕ × Word)) (ty : Word) (b : Buffer)
    (h : (endPos (fs.map Prod.fst) 0 rtShift).1 < bufferSize) :
    IsStart ((wrFields fs (wrNew ty b)).buffer 0) ∧
      recordType ((wrFields fs (wrNew ty b)).buffer 0) = ty &&& rtMask ∧
      (∀ k, 1 ≤ k → k ≤ (wrFields fs (wrNew ty b)).bufferIndex →
        ¬ IsStart ((wrFields fs (wrNew ty b)).buffer k)) ∧
      (wrFields fs (wrNew ty b)).bufferIndex = (endPos (fs.map Prod.fst) 0 rtShift).1 := by
  have hspec := wrFields_spec fs (wrNew ty b) (show rtShift ≤ 31 by decide) h
  have htop : (wrFields fs (wrNew ty b)).buffer 0 >>> rtShift = startWord ty >>> rtShift :=
    hspec.2.2.2.symm.trans (by simp [wrNew, startWord])
  refine ⟨(isStart_congr htop).2 (isStart_startWord ty),
    (recordType_congr htop).trans (recordType_startWord ty), ?_, hspec.1⟩
  refine wrFields_not_isStart fs (wrNew ty b) (show rtShift ≤ 31 by decide) h fun k h1 h2 => ?_
  simp only [wrNew] at h2
  omega

/-! ## What was in the buffer before -/

theorem agree_update {m i : ℕ} {b b' : ℕ → Word} (h : ∀ k ≤ m, b k = b' k) {w w' : Word}
    (hw : w = w') : ∀ k ≤ m, Function.update b i w k = Function.update b' i w' k := by
  intro k hk
  by_cases hki : k = i
  · subst hki
    rw [Function.update_self, Function.update_self, hw]
  · rw [Function.update_of_ne hki, Function.update_of_ne hki, h k hk]

/-- What is written depends on the words in use alone: each further word is
cleared first. -/
theorem wrFrom_agree : ∀ (n : ℕ) (b b' : ℕ → Word) (idx ptr bits : ℕ) (data : Word),
    (∀ k ≤ idx, b k = b' k) →
    (wrFrom n b idx ptr bits data).2 = (wrFrom n b' idx ptr bits data).2 ∧
      ∀ k ≤ (wrFrom n b idx ptr bits data).2.1,
        (wrFrom n b idx ptr bits data).1 k = (wrFrom n b' idx ptr bits data).1 k := by
  intro n
  induction n with
  | zero =>
    intro b b' idx ptr bits data h
    exact ⟨rfl, agree_update h (by rw [h idx le_rfl])⟩
  | succ n ih =>
    intro b b' idx ptr bits data h
    unfold wrFrom
    by_cases hbits : bits > ptr
    · simp only [if_pos hbits]
      refine ih _ _ _ _ _ _ fun k hk => ?_
      by_cases hki : k = if idx < bufferSize - 1 then idx + 1 else idx
      · rw [hki, Function.update_self, Function.update_self]
      · rw [Function.update_of_ne hki, Function.update_of_ne hki]
        have hle : k ≤ idx := by split at hk <;> split at hki <;> omega
        split
        · exact agree_update h (by rw [h idx le_rfl]) k hle
        · exact h k hle
    · simp only [if_neg hbits]
      exact ⟨trivial, agree_update h (by rw [h idx le_rfl])⟩

/-- Two buffers with the same record in them. -/
def Buffer.SameRecord (b b' : Buffer) : Prop :=
  b.bufferIndex = b'.bufferIndex ∧ b.bufferPointer = b'.bufferPointer ∧
    ∀ k ≤ b.bufferIndex, b.buffer k = b'.buffer k

theorem Buffer.SameRecord.wr {b b' : Buffer} (h : b.SameRecord b') (bits : ℕ) (data : Word) :
    (AntTracer.wr bits data b).SameRecord (AntTracer.wr bits data b') := by
  obtain ⟨hi, hp, hb⟩ := h
  obtain ⟨h₁, h₂⟩ := wrFrom_agree (bits + 1) b.buffer b'.buffer b.bufferIndex b.bufferPointer bits
    data hb
  unfold AntTracer.wr
  rw [← hi, ← hp]
  exact ⟨congrArg Prod.fst h₁, congrArg Prod.snd h₁, h₂⟩

theorem Buffer.SameRecord.wrFields (fs : List (ℕ × Word)) : ∀ {b b' : Buffer}, b.SameRecord b' →
    (AntTracer.wrFields fs b).SameRecord (AntTracer.wrFields fs b') := by
  induction fs with
  | nil => exact id
  | cons f fs ih => exact fun h => ih (h.wr f.1 f.2)

theorem Buffer.SameRecord.wrSeq {b b' : Buffer} (h : b.SameRecord b') (sequence : Word) :
    (AntTracer.wrSeq sequence b).1.SameRecord (AntTracer.wrSeq sequence b').1 ∧
      (AntTracer.wrSeq sequence b).2 = (AntTracer.wrSeq sequence b').2 := by
  obtain ⟨hi, hp, hb⟩ := h
  unfold AntTracer.wrSeq
  rw [← hi]
  split
  · refine ⟨⟨rfl, hp, fun k hk => ?_⟩, rfl⟩
    by_cases hk' : k = b.bufferIndex + 1
    · simp [hk']
    · simpa [hk'] using hb k (by dsimp only at hk; omega)
  · exact ⟨⟨hi, hp, hb⟩, rfl⟩

end AntTracer
