import AntTracer.Library.Circular
import AntTracer.Library.Runs
import AntTracer.Record.Word
import Mathlib.Data.Nat.Digits.Lemmas

/-!
# The pool of random bytes

`rand.c` keeps 128 bytes that the soft device supplied in a circular buffer.
`RandRefill` adds what there is room for, `RandGet` takes one to four bytes
and makes a number of them. Every access to the buffer is checked here, so that
a result says that none was outside it.

The index `write` may be left at the end of the buffer, where the next refill
stores nothing before it goes on at the front; `RandBuf.Sound` allows it. What
the pool is for is a queue of bytes (`ByteQueue`), and any calls do to the
buffer what they do to it (`rand_pool_faithful`).
-/

namespace AntTracer

namespace App

open Stores Circular

/-! ## The source -/

/-- `RAND_BUF_SIZE`. -/
abbrev randBufSize : ℕ := 128

/-- `RAND_REFIL_THRESHOLD`. -/
abbrev randRefillThreshold : ℕ := randBufSize / 4

/-- A difference of `unsigned` values. -/
def usub (a b : ℕ) : ℕ := (a + 2 ^ 32 - b) % 2 ^ 32

/-- `randBuf`. -/
structure RandBuf where
  read : ℕ := 0
  write : ℕ := 0
  count : ℕ := 0
  data : ℕ → Byte := fun _ => 0#8

/-- `getOne`, with the byte that it takes from the pool, if it does. -/
def getOne (s : RandBuf) : Option (List Byte × Word × RandBuf) :=
  if s.count = 0 then some ([], 0#32, s)
  else if s.read < randBufSize then
    let v := s.data s.read
    let read := if s.read + 1 = randBufSize then 0 else s.read + 1
    some ([v], v.setWidth 32, { s with read := read, count := usub s.count 1 })
  else none

/-- The loop of `RandGet`, with the bytes that it takes from the pool. -/
def randGetFrom : ℕ → Word → RandBuf → Option (List Byte × Word × RandBuf)
  | c, v, s => do
    let r ← getOne s
    let v := (v <<< 8) ||| r.2.1
    match c with
    | 0 => some (r.1, v, r.2.2)
    | c + 1 => do
      let rs ← randGetFrom c v r.2.2
      some (r.1 ++ rs.1, rs.2)

/-- `RandGet`, with the bytes that it takes from the pool. -/
def randGet (count : Word) (s : RandBuf) : Option (List Byte × Word × RandBuf) :=
  randGetFrom ((count - 1#32) &&& 0x3#32).toNat 0#32 s

/-- `sd_rand_application_vector_get`: the soft device fills the length asked
for with the bytes that are next. -/
def vectorGet (next : ℕ → Byte) (pos : ℕ) : ℕ → (ℕ → Byte) → Option (ℕ → Byte)
  | 0, data => some data
  | length + 1, data => do
    let data ← vectorGet next pos length data
    if pos + length < randBufSize then some (Function.update data (pos + length) (next length))
    else none

/-- `RandRefill`, with `appAvailable` bytes available and `next` the ones the
soft device supplies next. The first part of the result is their number. -/
def randRefill (appAvailable : Byte) (next : ℕ → Byte) (s : RandBuf) : Option (ℕ × RandBuf) :=
  let available := usub randBufSize s.count
  if available < randRefillThreshold then some (0, s)
  else if appAvailable = 0#8 then some (0, s)
  else do
    let length := if appAvailable.toNat > available then available else appAvailable.toNat
    let n := if length < usub randBufSize s.write then length else usub randBufSize s.write
    let rem := usub length n
    let data ← vectorGet next s.write n s.data
    if rem > 0 then do
      let data ← vectorGet (fun i => next (n + i)) 0 rem data
      some (n + rem, { s with data := data, write := rem, count := s.count + length })
    else some (n, { s with data := data, write := s.write + n, count := s.count + length })

/-! ## The buffer -/

/-- The bytes in the pool, the next one first. -/
def RandBuf.held (s : RandBuf) : List Byte := contents randBufSize s.data s.read s.count

/-- The state the pool is in between calls. -/
structure RandBuf.Sound (s : RandBuf) : Prop where
  read_lt : s.read < randBufSize
  count_le : s.count ≤ randBufSize
  write_le : s.write ≤ randBufSize
  write_mod : s.write % randBufSize = (s.read + s.count) % randBufSize

variable {s : RandBuf}

theorem RandBuf.sound_init : ({} : RandBuf).Sound := ⟨by decide, by decide, by decide, rfl⟩

theorem usub_eq {a b : ℕ} (h : b ≤ a) (ha : a < 2 ^ 32) : usub a b = a - b := by
  rw [usub, show a + 2 ^ 32 - b = a - b + 2 ^ 32 by omega, Nat.add_mod_right,
    Nat.mod_eq_of_lt (by omega)]

@[simp] theorem RandBuf.held_length : s.held.length = s.count := contents_length

/-- **`getOne` takes the next byte**, and gives a zero if there is none. -/
theorem getOne_eq (h : s.Sound) : ∃ s', getOne s =
      some (s.held.take 1, (s.held.headD 0#8).setWidth 32, s') ∧ s'.Sound ∧
      s'.held = s.held.tail := by
  obtain ⟨hread, hcount, hwrite, hmod⟩ := h
  by_cases hzero : s.count = 0
  · have hnil : s.held = [] := by rw [RandBuf.held, hzero, contents_zero]
    exact ⟨s, by rw [getOne, if_pos hzero, hnil]; rfl, ⟨hread, hcount, hwrite, hmod⟩,
      by rw [hnil]; rfl⟩
  · obtain ⟨c, hc⟩ : ∃ c, s.count = c + 1 := ⟨s.count - 1, by omega⟩
    have hN : randBufSize = 128 := rfl
    have hheld : s.held = s.data s.read :: contents randBufSize s.data (s.read + 1) c := by
      rw [RandBuf.held, hc, contents_succ, Nat.mod_eq_of_lt hread]
    have hnext : (if s.read + 1 = randBufSize then 0 else s.read + 1) =
        (s.read + 1) % randBufSize := by
      show (if s.read + 1 = 128 then 0 else s.read + 1) = (s.read + 1) % 128
      split <;> omega
    rw [getOne, if_neg hzero, if_pos hread, hnext, usub_eq (by omega) (by omega), hheld, hc,
      Nat.add_sub_cancel]
    refine ⟨_, rfl, ⟨Nat.mod_lt _ (by decide), ?_, hwrite, ?_⟩, contents_mod⟩
    · show c ≤ randBufSize
      omega
    · show s.write % randBufSize = ((s.read + 1) % randBufSize + c) % randBufSize
      rw [hmod, hc, Nat.mod_add_mod, Nat.add_assoc, Nat.add_comm 1 c]

/-- What a call takes out: the next bytes, and zeros when there are no more. -/
def drawn : ℕ → List Byte → List Byte
  | 0, _ => []
  | k + 1, l => l.headD 0#8 :: drawn k l.tail

theorem drawn_eq (k : ℕ) (l : List Byte) :
    drawn k l = l.take k ++ List.replicate (k - l.length) 0#8 := by
  induction k generalizing l with
  | zero => simp [drawn]
  | succ k ih =>
    cases l with
    | nil => simp [drawn, ih, List.replicate_succ]
    | cons b l => simp [drawn, ih]

/-- The number `RandGet` makes of bytes. -/
def shiftIn (v : Word) (bs : List Byte) : Word :=
  bs.foldl (fun v b => (v <<< 8) ||| b.setWidth 32) v

/-- **`RandGet` takes the next bytes.** -/
theorem randGetFrom_eq (c : ℕ) : ∀ (v : Word) {s : RandBuf}, s.Sound →
    ∃ s', randGetFrom c v s = some (s.held.take (c + 1), shiftIn v (drawn (c + 1) s.held), s') ∧
      s'.Sound ∧ s'.held = s.held.drop (c + 1) := by
  induction c with
  | zero =>
    intro v s h
    obtain ⟨s', hone, hs', hheld⟩ := getOne_eq h
    refine ⟨s', ?_, hs', by rw [hheld, List.drop_one]⟩
    rw [randGetFrom, hone]
    rfl
  | succ c ih =>
    intro v s h
    obtain ⟨s₁, hone, hs₁, hheld₁⟩ := getOne_eq h
    obtain ⟨s₂, hrest, hs₂, hheld₂⟩ := ih ((v <<< 8) ||| (s.held.headD 0#8).setWidth 32) hs₁
    have htake : s.held.take 1 ++ s.held.tail.take (c + 1) = s.held.take (c + 1 + 1) := by
      cases s.held <;> rfl
    refine ⟨s₂, ?_, hs₂, by rw [hheld₂, hheld₁, List.drop_tail]⟩
    rw [randGetFrom, hone]
    simp only [Option.bind_eq_bind, Option.bind_some, hrest, hheld₁, htake]
    rfl

/-! ## Refilling -/

/-- The soft device fills a stretch of the buffer. -/
theorem vectorGet_eq (next : ℕ → Byte) (pos : ℕ) (length : ℕ) (data : ℕ → Byte)
    (h : length = 0 ∨ pos + length ≤ randBufSize) :
    vectorGet next pos length data = some (place data pos (block next 0 length)) := by
  induction length with
  | zero =>
    rw [show block next 0 0 = [] from rfl, place_nil]
    rfl
  | succ length ih =>
    have hblock : block next 0 (length + 1) = block next 0 length ++ [next length] := by
      rw [block_add, Nat.zero_add]
      rfl
    have hplace := place_append data pos (block next 0 length) [next length]
    rw [block_length] at hplace
    rw [vectorGet, ih (by omega), Option.bind_eq_bind, Option.bind_some, if_pos (by omega),
      update_eq_place, hplace, hblock]

/-- The bytes there are to be added to a number of them: as many as there is
room for, and are available, unless little is missing. -/
def refillOf (appAvailable : Byte) (count : ℕ) : ℕ :=
  if randBufSize - count < randRefillThreshold then 0
  else min appAvailable.toNat (randBufSize - count)

/-- **`RandRefill` adds them behind those in the pool.** -/
theorem randRefill_eq (h : s.Sound) (appAvailable : Byte) (next : ℕ → Byte) :
    ∃ s', randRefill appAvailable next s = some (refillOf appAvailable s.count, s') ∧ s'.Sound ∧
      s'.held = s.held ++ block next 0 (refillOf appAvailable s.count) := by
  have hN : randBufSize = 128 := rfl
  obtain ⟨hread, hcount, hwrite, hmod⟩ := h
  have hsame : s.held = s.held ++ block next 0 0 := (List.append_nil _).symm
  rw [randRefill]
  simp only [usub_eq hcount (by decide), usub_eq hwrite (by decide)]
  by_cases hthreshold : randBufSize - s.count < randRefillThreshold
  · have hzero : refillOf appAvailable s.count = 0 := if_pos hthreshold
    rw [hzero]
    exact ⟨s, if_pos hthreshold, ⟨hread, hcount, hwrite, hmod⟩, hsame⟩
  by_cases hnone : appAvailable = 0#8
  · have hzero : refillOf appAvailable s.count = 0 := by
      rw [refillOf, if_neg hthreshold, hnone]
      exact Nat.zero_min _
    rw [hzero]
    exact ⟨s, by rw [if_neg hthreshold, if_pos hnone], ⟨hread, hcount, hwrite, hmod⟩, hsame⟩
  have hrefill : refillOf appAvailable s.count =
      if appAvailable.toNat > randBufSize - s.count then randBufSize - s.count
      else appAvailable.toNat := by
    rw [refillOf, if_neg hthreshold]
    split <;> omega
  rw [if_neg hthreshold, if_neg hnone, hrefill]
  generalize hlen : (if appAvailable.toNat > randBufSize - s.count then randBufSize - s.count
    else appAvailable.toNat) = length
  have hlength : s.count + length ≤ randBufSize := by
    rw [← hlen]
    split <;> omega
  have hn : (if length < randBufSize - s.write then length else randBufSize - s.write) =
      min (randBufSize - s.write) length := by
    split <;> omega
  set n := min (randBufSize - s.write) length with hn'
  -- what both pieces make of the buffer
  have hheld : contents randBufSize (fill randBufSize s.data s.write (block next 0 length)) s.read
      (s.count + length) = s.held ++ block next 0 length := by
    have h := contents_fill (d := s.data) (l := block next 0 length) hwrite hmod
      (by rw [block_length]; exact hlength)
    rwa [block_length] at h
  have hfill : fill randBufSize s.data s.write (block next 0 length) =
      place (place s.data s.write (block next 0 n)) 0 (block next n (length - n)) := fill_block
  rw [hn, usub_eq (show n ≤ length by omega) (by omega),
    vectorGet_eq next s.write n s.data (by omega), Option.bind_eq_bind, Option.bind_some]
  by_cases hrem : length - n > 0
  · have hnext := vectorGet_eq (fun i => next (n + i)) 0 (length - n)
      (place s.data s.write (block next 0 n)) (by omega)
    rw [block_shift] at hnext
    refine ⟨⟨s.read, length - n, s.count + length,
      fill randBufSize s.data s.write (block next 0 length)⟩, ?_, ?_, hheld⟩
    · rw [if_pos hrem, hnext, Option.bind_some, hfill,
        show n + (length - n) = length by omega]
    · refine ⟨hread, hlength, show length - n ≤ randBufSize by omega, ?_⟩
      show (length - n) % 128 = (s.read + (s.count + length)) % 128
      have hmod' : s.write % 128 = (s.read + s.count) % 128 := hmod
      omega
  · refine ⟨⟨s.read, s.write + n, s.count + length,
      fill randBufSize s.data s.write (block next 0 length)⟩, ?_, ?_, hheld⟩
    · rw [if_neg hrem, hfill, show length - n = 0 by omega, show n = length by omega]
      exact congrArg _ (congrArg _ (congrArg _ place_nil.symm))
    · refine ⟨hread, hlength, show s.write + n ≤ randBufSize by omega, ?_⟩
      show (s.write + n) % 128 = (s.read + (s.count + length)) % 128
      have hmod' : s.write % 128 = (s.read + s.count) % 128 := hmod
      omega

/-! ## The number -/

/-- The number that bytes denote, the first the highest. -/
def bigEndian (bs : List Byte) : ℕ := Nat.ofDigits 256 (bs.map BitVec.toNat).reverse

theorem bigEndian_concat (bs : List Byte) (b : Byte) :
    bigEndian (bs ++ [b]) = 256 * bigEndian bs + b.toNat := by
  rw [bigEndian, List.map_append, List.reverse_append, List.map_singleton, List.reverse_singleton,
    List.singleton_append, Nat.ofDigits_cons, Nat.add_comm]
  rfl

theorem bigEndian_lt (bs : List Byte) : bigEndian bs < 256 ^ bs.length := by
  induction bs using List.reverseRecOn with
  | nil => decide
  | append_singleton bs b ih =>
    have hb := b.isLt
    rw [bigEndian_concat, List.length_append, List.length_singleton, pow_succ]
    omega

theorem bigEndian_eq_zero {bs : List Byte} : bigEndian bs = 0 ↔ ∀ b ∈ bs, b = 0#8 := by
  induction bs using List.reverseRecOn with
  | nil => simp [bigEndian]
  | append_singleton bs b ih =>
    have hb : b = 0#8 ↔ b.toNat = 0 := (BitVec.toNat_eq (x := b) (y := 0#8))
    rw [bigEndian_concat]
    simp only [List.mem_append, List.mem_singleton, or_imp, forall_and, forall_eq, ← ih, hb]
    omega

/-- Up to four bytes are shifted in to the number they denote. -/
theorem toNat_shiftIn {bs : List Byte} (h : bs.length ≤ 4) :
    (shiftIn 0#32 bs).toNat = bigEndian bs := by
  induction bs using List.reverseRecOn with
  | nil => rfl
  | append_singleton bs b ih =>
    rw [List.length_append, List.length_singleton] at h
    have hlt := bigEndian_lt bs
    have hpow : 256 ^ bs.length ≤ 256 ^ 3 := Nat.pow_le_pow_right (by decide) (by omega)
    have hb := b.isLt
    have hshift : (shiftIn 0#32 bs <<< 8).toNat = bigEndian bs * 2 ^ 8 := by
      rw [BitVec.toNat_shiftLeft, ih (by omega), Nat.shiftLeft_eq, Nat.mod_eq_of_lt (by omega)]
    rw [shiftIn, List.foldl_append]
    show ((shiftIn 0#32 bs <<< 8) ||| b.setWidth 32).toNat = _
    rw [BitVec.toNat_or, hshift, BitVec.toNat_setWidth, Nat.mod_eq_of_lt (by omega),
      bigEndian_concat, Nat.mul_comm, ← Nat.two_pow_add_eq_or_of_lt hb]

/-- It fits in a word. -/
theorem toNat_bigEndian {bs : List Byte} (h : bs.length ≤ 4) :
    (BitVec.ofNat 32 (bigEndian bs)).toNat = bigEndian bs := by
  have hpow : 256 ^ bs.length ≤ 256 ^ 4 := Nat.pow_le_pow_right (by decide) h
  have hlt := bigEndian_lt bs
  rw [BitVec.toNat_ofNat, Nat.mod_eq_of_lt (by omega)]

/-- The number of bytes a count is taken for. -/
def bytesFor (count : Word) : ℕ := (count - 1#32).toNat % 4 + 1

/-- **What `RandGet` does**: it takes the bytes its count is taken for, as far
as there are any, and returns the number they denote with zeros for the others. -/
theorem randGet_eq (h : s.Sound) (count : Word) :
    ∃ s', randGet count s = some (s.held.take (bytesFor count),
        BitVec.ofNat 32 (bigEndian (s.held.take (bytesFor count) ++
          List.replicate (bytesFor count - s.held.length) 0#8)), s') ∧
      s'.Sound ∧ s'.held = s.held.drop (bytesFor count) := by
  have hmask : ((count - 1#32) &&& 0x3#32).toNat + 1 = bytesFor count := by
    rw [bytesFor, BitVec.toNat_and]
    congr 1
    exact Nat.and_two_pow_sub_one_eq_mod _ 2
  obtain ⟨s', hget, hs', hheld⟩ := randGetFrom_eq ((count - 1#32) &&& 0x3#32).toNat 0#32 h
  rw [hmask] at hget hheld
  have hle : bytesFor count ≤ 4 := by
    unfold bytesFor
    omega
  have hlen : (drawn (bytesFor count) s.held).length ≤ 4 := by
    rw [drawn_eq, List.length_append, List.length_take, List.length_replicate]
    omega
  refine ⟨s', ?_, hs', hheld⟩
  rw [randGet, hget, ← drawn_eq, ← toNat_shiftIn hlen, BitVec.ofNat_toNat, BitVec.setWidth_eq]

/-! ## The pool -/

/-- What is called. -/
inductive RandCall where
  | get (count : Word)
  | refill (appAvailable : Byte)

/-- The buffer, with how many bytes came in, which went out, and what was
returned. -/
structure Pool where
  buf : RandBuf := {}
  supplied : ℕ := 0
  taken : List Byte := []
  returned : List Word := []

/-- A call, with the bytes of `vector` coming from the soft device. -/
def Pool.step (vector : ℕ → Byte) (p : Pool) : RandCall → Option Pool
  | .get count => do
    let r ← randGet count p.buf
    some { p with buf := r.2.2, taken := p.taken ++ r.1, returned := p.returned ++ [r.2.1] }
  | .refill appAvailable => do
    let r ← randRefill appAvailable (fun i => vector (p.supplied + i)) p.buf
    some { p with buf := r.2, supplied := p.supplied + r.1 }

/-- **A queue of bytes**, with the same history. -/
structure ByteQueue where
  held : List Byte := []
  supplied : ℕ := 0
  taken : List Byte := []
  returned : List Word := []

/-- `RandGet` takes bytes at the front, and returns the number they denote, with
zeros for those that are missing. `RandRefill` adds bytes at the end. -/
def ByteQueue.step (vector : ℕ → Byte) (q : ByteQueue) : RandCall → ByteQueue
  | .get count =>
    let bytes := q.held.take (bytesFor count)
    let missing := bytesFor count - q.held.length
    { q with
      held := q.held.drop (bytesFor count)
      taken := q.taken ++ bytes
      returned := q.returned ++
        [BitVec.ofNat 32 (bigEndian (bytes ++ List.replicate missing 0#8))] }
  | .refill appAvailable =>
    let n := refillOf appAvailable q.held.length
    { q with
      held := q.held ++ block vector q.supplied n
      supplied := q.supplied + n }

/-- The buffer holds the bytes of the queue. -/
structure Pool.Refines (q : ByteQueue) (p : Pool) : Prop where
  sound : p.buf.Sound
  held : p.buf.held = q.held
  supplied : p.supplied = q.supplied
  taken : p.taken = q.taken
  returned : p.returned = q.returned

variable {vector : ℕ → Byte}

/-- **A call does the same to both**, and stays inside the buffer. -/
theorem Pool.step_eq {q : ByteQueue} {p : Pool} (call : RandCall) (h : p.Refines q) :
    ∃ p', p.step vector call = some p' ∧ p'.Refines (q.step vector call) := by
  obtain ⟨hsound, hheld, hsupplied, htaken, hreturned⟩ := h
  cases call with
  | get count =>
    obtain ⟨s', hget, hs', hheld'⟩ := randGet_eq hsound count
    rw [hheld] at hget hheld'
    rw [Pool.step, hget]
    refine ⟨_, rfl, hs', hheld', hsupplied, ?_, ?_⟩
    · rw [ByteQueue.step, htaken]
    · rw [ByteQueue.step, hreturned]
  | refill appAvailable =>
    obtain ⟨s', hrefill, hs', hheld'⟩ :=
      randRefill_eq hsound appAvailable fun i => vector (p.supplied + i)
    have hcount : p.buf.count = q.held.length := by rw [← hheld, RandBuf.held_length]
    rw [hcount] at hrefill hheld'
    rw [block_shift, hheld, hsupplied] at hheld'
    rw [Pool.step, hrefill]
    refine ⟨_, rfl, hs', hheld', ?_, htaken, hreturned⟩
    rw [ByteQueue.step, hsupplied]

/-- What went out of the queue and what is held is what came in. -/
theorem ByteQueue.taken_append (vector : ℕ → Byte) (calls : List RandCall) :
    (Runs.run (ByteQueue.step vector) {} calls).taken ++
        (Runs.run (ByteQueue.step vector) {} calls).held =
      block vector 0 (Runs.run (ByteQueue.step vector) {} calls).supplied := by
  refine Runs.inv_run (P := fun q : ByteQueue => q.taken ++ q.held = block vector 0 q.supplied)
    (fun q call h => ?_) rfl calls
  cases call with
  | get count =>
    rw [ByteQueue.step, List.append_assoc, List.take_append_drop]
    exact h
  | refill appAvailable =>
    rw [ByteQueue.step, ← List.append_assoc, h, block_add, Nat.zero_add]

/-- **The pool is a queue.** In any order of calls no access is outside the
buffer, the bytes taken are the first of those supplied, and the calls return
what those of the queue return. -/
theorem rand_pool_faithful (vector : ℕ → Byte) (calls : List RandCall) :
    ∃ p, calls.foldlM (Pool.step vector) {} = some p ∧ p.buf.read < randBufSize ∧
      p.buf.count ≤ randBufSize ∧ p.Refines (Runs.run (ByteQueue.step vector) {} calls) ∧
      p.taken = block vector 0 p.taken.length ∧
      p.taken ++ p.buf.held = block vector 0 p.supplied := by
  have hinit : Pool.Refines {} {} := ⟨RandBuf.sound_init, rfl, rfl, rfl, rfl⟩
  obtain ⟨p, hrun, h⟩ := Runs.exists_foldlM_run (fun q p call h => Pool.step_eq call h) hinit calls
  have htaken : p.taken ++ p.buf.held = block vector 0 p.supplied := by
    rw [h.taken, h.held, h.supplied]
    exact ByteQueue.taken_append vector calls
  refine ⟨p, hrun, h.sound.read_lt, h.sound.count_le, h, ?_, htaken⟩
  have hlen := congrArg List.length htaken
  rw [List.length_append, block_length] at hlen
  have hprefix := congrArg (List.take p.taken.length) htaken
  rwa [List.take_left' rfl, block_take, min_eq_left (by omega)] at hprefix

/-! ## The comment on `RandGet` -/

/-- What the comment on `RandGet` promises. -/
def RandContract (count : Word) (s : RandBuf) : Prop :=
  ∃ taken v s', randGet count s = some (taken, v, s') ∧
    (1 ≤ count.toNat ∧ count.toNat ≤ 4 ∧ count.toNat ≤ s.count →
      v.toNat = bigEndian (s.held.take count.toNat) ∧ s'.held = s.held.drop count.toNat) ∧
    (¬ (1 ≤ count.toNat ∧ count.toNat ≤ 4 ∧ count.toNat ≤ s.count) → v = 0#32)

/-- **`RandGet` keeps to the comment just when** the count is one to four and
the pool holds as many bytes, or the bytes taken in place of a failure are all
zero. -/
theorem randContract_iff {s : RandBuf} (h : s.Sound) (count : Word) :
    RandContract count s ↔
      (1 ≤ count.toNat ∧ count.toNat ≤ 4 ∧ count.toNat ≤ s.count) ∨
        ∀ b ∈ s.held.take (bytesFor count), b = 0#8 := by
  obtain ⟨s', hget, -, hheld⟩ := randGet_eq h count
  set bytes := s.held.take (bytesFor count) ++
    List.replicate (bytesFor count - s.held.length) 0#8 with hbytes
  have hlen : bytes.length ≤ 4 := by
    rw [hbytes, List.length_append, List.length_take, List.length_replicate, bytesFor]
    omega
  have hzero : BitVec.ofNat 32 (bigEndian bytes) = 0#32 ↔
      ∀ b ∈ s.held.take (bytesFor count), b = 0#8 := by
    rw [BitVec.toNat_eq, toNat_bigEndian hlen, BitVec.toNat_ofNat, Nat.zero_mod,
      bigEndian_eq_zero, hbytes]
    simp only [List.mem_append, List.mem_replicate, or_imp, forall_and]
    exact and_iff_left fun b hb => hb.2
  constructor
  · rintro ⟨taken, v, s'', heq, -, hfail⟩
    rw [hget] at heq
    cases heq
    by_cases hcond : 1 ≤ count.toNat ∧ count.toNat ≤ 4 ∧ count.toNat ≤ s.count
    · exact .inl hcond
    · exact .inr (hzero.1 (hfail hcond))
  · intro hor
    refine ⟨_, _, s', hget, ?_, ?_⟩
    · rintro ⟨hone, hfour, henough⟩
      have hcount : bytesFor count = count.toNat := by
        rw [bytesFor, BitVec.toNat_sub, show (1#32).toNat = 1 from rfl]
        omega
      have hall : bytes = s.held.take count.toNat := by
        rw [hbytes, hcount, RandBuf.held_length, Nat.sub_eq_zero_of_le henough,
          List.replicate_zero, List.append_nil]
      exact ⟨by rw [toNat_bigEndian hlen, hall], by rw [hheld, hcount]⟩
    · intro hcond
      exact hzero.2 (hor.resolve_left hcond)

/-- One byte in the pool, and two asked for: the byte comes out, with a zero
behind it. -/
theorem randContract_one_byte : let s : RandBuf := { count := 1, data := fun _ => 0x5a#8 }
    (randGet 2#32 s).map (·.2.1) = some 0x5a00#32 ∧ ¬ RandContract 2#32 s := by
  refine ⟨by decide +kernel, ?_⟩
  rintro ⟨taken, v, s', heq, -, hfail⟩
  have hv : v = 0x5a00#32 := by
    have : (randGet 2#32 { count := 1, data := fun _ => 0x5a#8 }).map (·.2.1) = some 0x5a00#32 := by
      decide +kernel
    rw [heq] at this
    exact Option.some.inj this
  exact absurd (hv.symm.trans (hfail (by decide))) (by decide)

/-- A full pool keeps to it. -/
theorem randContract_full : RandContract 3#32 { write := 128, count := 128 } :=
  (randContract_iff ⟨by decide, by decide, by decide, rfl⟩ 3#32).2
    (.inl ⟨by decide, by decide, by decide⟩)

end App

end AntTracer
