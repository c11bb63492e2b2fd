import AntTracer.Rtt.Buffer

/-!
# From the target to the host

`stream` is what the host has taken out of an up buffer followed by what it
can still take. No step of the host changes it, and a write changes it only
where it stores the write offset, when the bytes behind the old one are in
place.
-/

namespace AntTracer

namespace Rtt

open Shared Shared.Code Circular Stores Relation

/-! ## The states of a buffer -/

namespace Channel

/-- The bytes the buffer has room for. -/
def room (s : Channel) : ℕ :=
  s.ring.sizeOfBuffer - 1 - gap s.ring.sizeOfBuffer s.ring.rdOff s.ring.wrOff

/-- What the host has not taken out. -/
def unread (s : Channel) : List Byte :=
  contents s.ring.sizeOfBuffer s.ring.pBuffer s.cursor
    (gap s.ring.sizeOfBuffer s.cursor s.ring.wrOff)

/-- All that has gone through the buffer. -/
def stream (s : Channel) : List Byte := s.log ++ s.unread

/-- The offsets are in order: the read offset, where the host is, the write
offset as it last read it, the write offset. -/
structure UpWf (s : Channel) : Prop where
  rdOff_lt : s.ring.rdOff < s.ring.sizeOfBuffer
  wrOff_lt : s.ring.wrOff < s.ring.sizeOfBuffer
  cursor_lt : s.cursor < s.ring.sizeOfBuffer
  seen_lt : s.seen < s.ring.sizeOfBuffer
  cursor_le : gap s.ring.sizeOfBuffer s.ring.rdOff s.cursor ≤
    gap s.ring.sizeOfBuffer s.ring.rdOff s.seen
  seen_le : gap s.ring.sizeOfBuffer s.ring.rdOff s.seen ≤
    gap s.ring.sizeOfBuffer s.ring.rdOff s.ring.wrOff

end Channel

/-- The host has gone on, and the memory is what the target has made it. -/
structure Later (s : Channel) (m : ℕ → Byte) (u : Channel) : Prop where
  wf : u.UpWf
  pBuffer : u.ring.pBuffer = m
  size : u.ring.sizeOfBuffer = s.ring.sizeOfBuffer
  wrOff : u.ring.wrOff = s.ring.wrOff
  flags : u.ring.flags = s.ring.flags
  stream : u.stream = s.stream
  room : s.room ≤ u.room

/-- The bytes have been written, and the host has gone on. -/
structure Wrote (s : Channel) (l : List Byte) (u : Channel) : Prop where
  wf : u.UpWf
  size : u.ring.sizeOfBuffer = s.ring.sizeOfBuffer
  wrOff : u.ring.wrOff = (s.ring.wrOff + l.length) % s.ring.sizeOfBuffer
  flags : u.ring.flags = s.ring.flags
  stream : u.stream = s.stream ++ l
  room : s.room ≤ u.room + l.length

/-- What is kept all through a write: a condition on what has gone through
the buffer. -/
def Inv (J : List Byte → Prop) (s : Channel) : Prop := s.UpWf ∧ J s.stream

variable {s t u : Channel} {m : ℕ → Byte} {a k w : ℕ} {b : Byte} {l data : List Byte}
  {J : List Byte → Prop}

/-! ## The host -/

theorem upWf_doInit {size : ℕ} (h : 0 < size) : (doInit size).UpWf :=
  ⟨h, h, h, h, le_rfl, le_rfl⟩

theorem Channel.UpWf.later (h : s.UpWf) : Later s s.ring.pBuffer s :=
  ⟨h, rfl, rfl, rfl, rfl, rfl, le_rfl⟩

/-- **The host does not change what has gone through.** -/
theorem Later.host (h : Later s m u) (hstep : UpHost u t) : Later s m t := by
  obtain ⟨⟨hrd, hwr, hcur, hseen, hcle, hsle⟩, hm, hsize, hwrOff, hflags, hstream, hroom⟩ := h
  cases hstep with
  | look => exact ⟨⟨hrd, hwr, hcur, hwr, hcle.trans hsle, le_rfl⟩, hm, hsize, hwrOff, hflags,
      hstream, hroom⟩
  | take hne =>
    have hlt : gap u.ring.sizeOfBuffer u.ring.rdOff u.cursor <
        gap u.ring.sizeOfBuffer u.ring.rdOff u.seen :=
      lt_of_le_of_ne hcle fun heq => hne (eq_of_gap_eq hrd hcur hseen heq)
    have hseenlt := gap_lt hrd hseen
    have hnext : gap u.ring.sizeOfBuffer u.ring.rdOff (next u.ring.sizeOfBuffer u.cursor) =
        gap u.ring.sizeOfBuffer u.ring.rdOff u.cursor + 1 := by
      rw [next_eq hcur, gap_add_mod hrd hcur (by omega)]
    have hnextlt := next_lt hcur
    refine ⟨⟨hrd, hwr, hnextlt, hseen, hnext.trans_le hlt, hsle⟩, hm, hsize, hwrOff, hflags, ?_,
      hroom⟩
    -- the byte goes from the head of what is unread to the end of the log
    have hgap : gap u.ring.sizeOfBuffer u.cursor u.ring.wrOff =
        gap u.ring.sizeOfBuffer (next u.ring.sizeOfBuffer u.cursor) u.ring.wrOff + 1 := by
      have h₁ := gap_add_gap hrd hcur hwr (hcle.trans hsle)
      have h₂ := gap_add_gap hrd hnextlt hwr ((hnext.trans_le hlt).trans hsle)
      omega
    rw [← hstream]
    simp only [Channel.stream, Channel.unread, hgap, contents_succ, Nat.mod_eq_of_lt hcur]
    rw [next_eq hcur, contents_mod, List.append_assoc, List.singleton_append]
  | store =>
    have hseengap := gap_add_gap hrd hcur hseen hcle
    have hwrgap := gap_add_gap hrd hcur hwr (hcle.trans hsle)
    refine ⟨⟨hcur, hwr, hcur, hseen, ?_, ?_⟩, hm, hsize, hwrOff, hflags, hstream, ?_⟩
    · simp only [Channel.setRdOff, gap_self, Nat.zero_le]
    · simp only [Channel.setRdOff]
      omega
    · refine hroom.trans ?_
      simp only [Channel.room, Channel.setRdOff]
      omega

theorem Later.hosts (h : Later s m u) (hsteps : ReflTransGen UpHost u t) : Later s m t := by
  induction hsteps with
  | refl => exact h
  | tail _ hstep ih => exact ih.host hstep

/-! ## Accesses of the target -/

theorem Later.inv (h : Later s m u) (hJ : J s.stream) : Inv J u := ⟨h.wf, h.stream ▸ hJ⟩

/-- The cells that are not in use are those from the write offset on. -/
theorem Later.put (h : Later s m u) {j : ℕ} (hj : j ≤ s.room)
    (ha : a = (s.ring.wrOff + j) % s.ring.sizeOfBuffer) :
    Later s (Function.update m a b) (u.put a b) := by
  obtain ⟨⟨hrd, hwr, hcur, hseen, hcle, hsle⟩, hm, hsize, hwrOff, hflags, hstream, hroom⟩ := h
  refine ⟨⟨hrd, hwr, hcur, hseen, hcle, hsle⟩, by rw [← hm]; rfl, hsize, hwrOff, hflags, ?_, hroom⟩
  rw [← hstream]
  refine congrArg (u.log ++ ·) (contents_congr fun i hi => ?_)
  have hused := gap_add_gap hrd hcur hwr (hcle.trans hsle)
  have hrdlt := gap_lt hrd hwr
  have hcell : a = (u.cursor + (gap u.ring.sizeOfBuffer u.cursor u.ring.wrOff + j)) %
      u.ring.sizeOfBuffer := by
    rw [ha, ← hsize, ← hwrOff, ← Nat.add_assoc, ← Nat.mod_add_mod (u.cursor + _), add_gap hcur hwr]
  refine Function.update_of_ne ?_ _ _
  rw [hcell]
  simp only [Channel.room, Channel.put] at hroom hj hi ⊢
  exact cell_ne (by omega) (by omega)

theorem Later.wrote (h : Later s m u) : Wrote s [] u where
  wf := h.wf
  size := h.size
  wrOff := by
    rw [h.wrOff, List.length_nil, Nat.add_zero, Nat.mod_eq_of_lt]
    exact h.size ▸ h.wrOff ▸ h.wf.wrOff_lt
  flags := h.flags
  stream := by rw [h.stream, List.append_nil]
  room := h.room

/-- One write and then another. -/
theorem Wrote.append {l' : List Byte} (h : Wrote s l t) (h' : Wrote t l' u) :
    Wrote s (l ++ l') u where
  wf := h'.wf
  size := h'.size.trans h.size
  wrOff := by
    rw [h'.wrOff, h.wrOff, h.size, Nat.mod_add_mod, List.length_append, Nat.add_assoc]
  flags := h'.flags.trans h.flags
  stream := by rw [h'.stream, h.stream, List.append_assoc]
  room := by
    have h₁ := h.room
    have h₂ := h'.room
    rw [List.length_append]
    omega

/-- What is behind the write offset goes through when the offset is stored. -/
theorem Later.publish (h : Later s m u) (hlen : l.length ≤ s.room)
    (hl : contents s.ring.sizeOfBuffer m s.ring.wrOff l.length = l)
    (hw : w = (s.ring.wrOff + l.length) % s.ring.sizeOfBuffer) : Wrote s l (u.setWrOff w) := by
  obtain ⟨⟨hrd, hwr, hcur, hseen, hcle, hsle⟩, hm, hsize, hwrOff, hflags, hstream, hroom⟩ := h
  have hw' := hw
  rw [← hsize, ← hwrOff] at hw
  rw [← hsize, ← hwrOff, ← hm] at hl
  have hlt : w < u.ring.sizeOfBuffer := hw ▸ Nat.mod_lt _ (by omega)
  have hused := gap_add_gap hrd hcur hwr (hcle.trans hsle)
  have hrdlt := gap_lt hrd hwr
  simp only [Channel.room] at hroom hlen
  have hgap : gap u.ring.sizeOfBuffer u.ring.rdOff w =
      gap u.ring.sizeOfBuffer u.ring.rdOff u.ring.wrOff + l.length := by
    rw [hw, gap_add_mod hrd hwr (by omega)]
  have hcgap : gap u.ring.sizeOfBuffer u.cursor w =
      gap u.ring.sizeOfBuffer u.cursor u.ring.wrOff + l.length := by
    rw [hw, gap_add_mod hcur hwr (by omega)]
  refine ⟨⟨hrd, hlt, hcur, hseen, hcle, ?_⟩, hsize, hw', hflags, ?_, ?_⟩
  · simp only [Channel.setWrOff, hgap]
    omega
  · rw [← hstream]
    simp only [Channel.stream, Channel.unread, Channel.setWrOff, hcgap, contents_add,
      List.append_assoc]
    congr 2
    rw [← contents_mod, add_gap hcur hwr, hl]
  · simp only [Channel.room, Channel.setWrOff, hgap]
    omega

/-! ## What a write lets through -/

/-- What of a message has gone through at some point of a write. -/
def Lets (flags : Word) (data p : List Byte) : Prop :=
  if flags = noBlockSkip then p = [] ∨ p = data
  else if flags = noBlockTrim ∨ flags = blockIfFifoFull then p <+: data
  else p = []

/-- How a write ends that has let `p` through. -/
structure Outcome (R : Channel → Channel → Prop) (rounds : ℕ) (s : Channel) (data : List Byte)
    (r : Option ℕ) (p : List Byte) : Prop where
  lets : Lets s.ring.flags data p
  count : ∀ n, r = some n → p.length = n
  /-- It waits in blocking mode only, for all of the message to go through. -/
  waits : r = none → s.ring.flags = blockIfFifoFull
  blocking : s.ring.flags = blockIfFifoFull → r ≠ none → p = data
  /-- A message that fits is not cut short. -/
  fits : s.ring.flags = noBlockSkip ∨ s.ring.flags = noBlockTrim → data.length ≤ s.room → p = data
  /-- Where the buffer is never found full, it does not wait for long. -/
  drained : (∀ s t, R s t → 0 < t.room) → 0 < rounds → data.length ≤ rounds → r ≠ none

theorem lets_nil {flags : Word} : Lets flags data [] := by
  unfold Lets
  split_ifs
  · exact .inl rfl
  · exact List.nil_prefix
  · rfl

/-- A write that returns says how much it has let through. -/
theorem Outcome.returned {R : Channel → Channel → Prop} {rounds : ℕ} {p : List Byte}
    (hlets : Lets s.ring.flags data p) (hblock : s.ring.flags = blockIfFifoFull → p = data)
    (hfits : s.ring.flags = noBlockSkip ∨ s.ring.flags = noBlockTrim → data.length ≤ s.room →
      p = data) : Outcome R rounds s data (some p.length) p where
  lets := hlets
  count _ h := Option.some.inj h
  waits h := nomatch h
  blocking h _ := hblock h
  fits := hfits
  drained _ _ _ h := nomatch h

/-! ## The functions -/

/-- What `_WriteBlocking` takes for the room. -/
theorem blockingSpace_eq (hs : s.UpWf) : (if s.ring.wrOff < s.ring.rdOff then
    s.ring.rdOff - s.ring.wrOff - 1
    else s.ring.sizeOfBuffer - (s.ring.wrOff - s.ring.rdOff + 1)) = s.room := by
  have hrd := hs.rdOff_lt
  have hwr := hs.wrOff_lt
  rw [Channel.room, gap]
  split_ifs <;> omega

/-- What `_GetAvailWriteSpace` takes for it. -/
theorem availSpace_eq (hs : s.UpWf) : (if s.ring.rdOff ≤ s.ring.wrOff then
    s.ring.sizeOfBuffer - 1 - s.ring.wrOff + s.ring.rdOff
    else s.ring.rdOff - s.ring.wrOff - 1) = s.room := by
  have hrd := hs.rdOff_lt
  have hwr := hs.wrOff_lt
  rw [Channel.room, gap]
  split_ifs <;> omega

section Functions

variable {α : Type} {R : Channel → Channel → Prop}
  (hR : ∀ {s t : Channel}, R s t → ReflTransGen UpHost s t)

include hR

theorem meets_load_later {f : Channel → α} {Q : α → Channel → Prop} (h : Later s m u)
    (hJ : J s.stream) (hQ : ∀ t, R u t → Later s m t → Q (f t) t) :
    (load f).Meets R (Inv J) Q u :=
  meets_load fun _ ht => ⟨(h.hosts (hR ht)).inv hJ, hQ _ ht (h.hosts (hR ht))⟩

theorem meets_wrOff {Q : ℕ → Channel → Prop} (h : Later s m u) (hJ : J s.stream)
    (hQ : ∀ t, Later s m t → Q s.ring.wrOff t) :
    (load fun s : Channel => s.ring.wrOff).Meets R (Inv J) Q u :=
  meets_load_later hR h hJ fun t _ ht => ht.wrOff ▸ hQ t ht

theorem meets_size {Q : ℕ → Channel → Prop} (h : Later s m u) (hJ : J s.stream)
    (hQ : ∀ t, Later s m t → Q s.ring.sizeOfBuffer t) :
    (load fun s : Channel => s.ring.sizeOfBuffer).Meets R (Inv J) Q u :=
  meets_load_later hR h hJ fun t _ ht => ht.size ▸ hQ t ht

/-- The read offset is the host's: a write that reads it goes on from there. -/
theorem meets_rdOff {Q : ℕ → Channel → Prop} (h : Later s m u) (hJ : J s.stream)
    (hQ : ∀ t, R u t → Later s m t → Later t m t → J t.stream → Q t.ring.rdOff t) :
    (load fun s : Channel => s.ring.rdOff).Meets R (Inv J) Q u :=
  meets_load_later hR h hJ fun t hut ht =>
    hQ t hut ht ⟨ht.wf, ht.pBuffer, rfl, rfl, rfl, rfl, le_rfl⟩ (ht.stream ▸ hJ)

/-- `memcpy`, to cells that are not in use. -/
theorem meets_memcpyTo {Q : Unit → Channel → Prop} (h : Later s m u) (hJ : J s.stream)
    (hfree : ∀ i < l.length, ∃ j ≤ s.room, a + i = (s.ring.wrOff + j) % s.ring.sizeOfBuffer)
    (hQ : ∀ t, Later s (Stores.place m a l) t → Q () t) :
    (memcpyTo a l).Meets R (Inv J) Q u := by
  induction l generalizing a m u with
  | nil => exact hQ u (by rwa [place_nil])
  | cons b l ih =>
    rw [memcpyTo, meets_bind]
    refine meets_store fun t ht => ?_
    obtain ⟨j, hj, ha⟩ := hfree 0 (Nat.succ_pos _)
    have hput := (h.hosts (hR ht)).put (b := b) hj ha
    refine ⟨hput.inv hJ, ih hput (fun i hi => ?_) fun t ht => hQ t ?_⟩
    · obtain ⟨j, hj, ha⟩ := hfree (i + 1) (Nat.succ_lt_succ hi)
      exact ⟨j, hj, by rw [← ha]; omega⟩
    · rwa [place_update] at ht

theorem meets_publish {Q : Unit → Channel → Prop} (h : Later s m u) (hJ : J (s.stream ++ l))
    (hlen : l.length ≤ s.room) (hl : contents s.ring.sizeOfBuffer m s.ring.wrOff l.length = l)
    (hw : w = (s.ring.wrOff + l.length) % s.ring.sizeOfBuffer)
    (hQ : ∀ t, Wrote s l t → Q () t) :
    (store (Channel.setWrOff w)).Meets R (Inv J) Q u := by
  refine meets_store fun t ht => ?_
  have hwrote := (h.hosts (hR ht)).publish hlen hl hw
  exact ⟨⟨hwrote.wf, hwrote.stream ▸ hJ⟩, hQ _ hwrote⟩

/-- A write that fits before the end of the buffer. -/
theorem meets_straight {Q : Unit → Channel → Prop} (h : Later s s.ring.pBuffer u)
    (hJ : J s.stream) (hJ' : J (s.stream ++ data)) (hroom : data.length ≤ s.room)
    (hlt : s.ring.wrOff + data.length < s.ring.sizeOfBuffer) (hQ : ∀ t, Wrote s data t → Q () t) :
    (memcpyTo s.ring.wrOff data).Meets R (Inv J) (fun _ =>
      (store (Channel.setWrOff (s.ring.wrOff + data.length))).Meets R (Inv J) Q) u := by
  refine meets_memcpyTo hR h hJ (fun i hi => ⟨i, by omega, ?_⟩) fun t ht =>
    meets_publish hR ht hJ' hroom (contents_place hlt.le) ?_ hQ
  · rw [Nat.mod_eq_of_lt (by omega)]
  · rw [Nat.mod_eq_of_lt hlt]

/-- A write in two pieces, around the end of the buffer. -/
theorem meets_around {Q : Unit → Channel → Prop} (hs : s.UpWf) (h : Later s s.ring.pBuffer u)
    (hJ : J s.stream) (hJ' : J (s.stream ++ data)) (hroom : data.length ≤ s.room)
    (hle : s.ring.sizeOfBuffer - s.ring.wrOff ≤ data.length) (hQ : ∀ t, Wrote s data t → Q () t) :
    (memcpyTo s.ring.wrOff (data.take (s.ring.sizeOfBuffer - s.ring.wrOff))).Meets R (Inv J)
      (fun _ => (memcpyTo 0 (data.drop (s.ring.sizeOfBuffer - s.ring.wrOff))).Meets R (Inv J)
        fun _ => (store (Channel.setWrOff (data.length -
          (s.ring.sizeOfBuffer - s.ring.wrOff)))).Meets R (Inv J) Q) u := by
  have hwr := hs.wrOff_lt
  have hlt : data.length < s.ring.sizeOfBuffer := by
    rw [Channel.room] at hroom
    omega
  refine meets_memcpyTo hR h hJ (fun i hi => ⟨i, ?_, ?_⟩) fun t ht => ?_
  · rw [List.length_take] at hi
    omega
  · rw [List.length_take] at hi
    rw [Nat.mod_eq_of_lt (by omega)]
  refine meets_memcpyTo hR ht hJ (fun i hi => ⟨s.ring.sizeOfBuffer - s.ring.wrOff + i, ?_, ?_⟩)
    fun t ht => meets_publish hR ht hJ' hroom ?_ ?_ hQ
  · rw [List.length_drop] at hi
    omega
  · rw [List.length_drop] at hi
    rw [mod_eq (by omega), if_neg (by omega)]
    omega
  · exact contents_fill_self hwr.le (by omega)
  · rw [mod_eq (by omega), if_neg (by omega)]
    omega

/-- **A write that has been found to fit** goes through as a whole. -/
theorem meets_writeNoCheck {Q : Unit → Channel → Prop} (hs : s.UpWf)
    (h : Later s s.ring.pBuffer u) (hJ : J s.stream) (hJ' : J (s.stream ++ data))
    (hroom : data.length ≤ s.room) (hQ : ∀ t, Wrote s data t → Q () t) :
    (writeNoCheck data).Meets R (Inv J) Q u := by
  simp only [writeNoCheck, meets_bind]
  refine meets_wrOff hR h hJ fun t ht => meets_size hR ht hJ fun t ht => ?_
  split
  · rw [meets_bind]
    exact meets_straight hR ht hJ hJ' hroom (by omega) hQ
  · simp only [meets_bind]
    exact meets_around hR hs ht hJ hJ' hroom (by omega) hQ

/-- The room that is found was there when the read offset was read. -/
theorem meets_getAvailWriteSpace {Q : ℕ → Channel → Prop} (h : Later s m u) (hJ : J s.stream)
    (hQ : ∀ t v, Later s m t → Later t m v → J t.stream → Q t.room v) :
    getAvailWriteSpace.Meets R (Inv J) Q u := by
  simp only [getAvailWriteSpace, meets_bind]
  refine meets_rdOff hR h hJ fun t _ ht hlater hJt => ?_
  refine meets_wrOff hR hlater hJt fun v hv => meets_size hR hv hJt fun v hv => ?_
  rw [availSpace_eq ht.wf]
  exact hQ t v ht hv hJt

/-- **A write that waits** goes through piece by piece, in order. Where the
buffer is never found full, each time round takes a byte. -/
theorem meets_writeBlockingFrom {Q : Option ℕ → Channel → Prop} {written rounds : ℕ}
    (h : Later s s.ring.pBuffer u) (hJ : ∀ p, p <+: data → J (s.stream ++ p))
    (hsome : ∀ t, Wrote s data t → Q (some (written + data.length)) t)
    (hnone : ∀ p t, p <+: data → Wrote s p t →
      ((∀ s t, R s t → 0 < t.room) → rounds ≤ p.length ∧ (data ≠ [] → p.length < data.length)) →
      Q none t) :
    (writeBlockingFrom s.ring.wrOff written data rounds).Meets R (Inv J) Q u := by
  induction rounds generalizing s u written data with
  | zero => exact hnone [] u List.nil_prefix h.wrote fun _ => ⟨le_rfl, List.length_pos_of_ne_nil⟩
  | succ rounds ih =>
    have hJs : J s.stream := by simpa using hJ [] List.nil_prefix
    simp only [writeBlockingFrom, meets_bind]
    refine meets_rdOff hR h hJs fun t hut ht hlater hJt => meets_size hR hlater hJt fun v hv => ?_
    rw [← ht.wrOff]
    have hspace := blockingSpace_eq ht.wf
    have hwr := ht.wf.wrOff_lt
    generalize hn : min (min (if t.ring.wrOff < t.ring.rdOff then _ else _) _) data.length = n
    have hnroom : n ≤ t.room := by omega
    have hnlen : (data.take n).length = n := by
      rw [List.length_take]
      omega
    have htake : data.take n <+: data := List.take_prefix ..
    have hcells : ∀ i < (data.take n).length, ∃ j ≤ t.room,
        t.ring.wrOff + i = (t.ring.wrOff + j) % t.ring.sizeOfBuffer := by
      intro i hi
      exact ⟨i, by omega, by rw [Nat.mod_eq_of_lt (by omega)]⟩
    refine meets_memcpyTo hR hv hJt hcells fun v hv => ?_
    have hw : (if t.ring.wrOff + n = t.ring.sizeOfBuffer then 0 else t.ring.wrOff + n) =
        (t.ring.wrOff + (data.take n).length) % t.ring.sizeOfBuffer := by
      rw [hnlen, mod_eq (by omega)]
      split_ifs <;> omega
    refine meets_publish hR hv (ht.stream ▸ hJ _ htake) (by omega) (contents_place (by omega)) hw
      fun v hv => ?_
    have hwrote : Wrote s (data.take n) v := ht.wrote.append hv
    split
    · rename_i hdrop
      have hall : data.take n = data := by
        have happ := List.take_append_drop n data
        rwa [hdrop, List.append_nil] at happ
      rw [hall] at hwrote hnlen
      exact hnlen ▸ hsome v hwrote
    · rename_i hdrop
      rw [hw, ← hv.wrOff]
      have hrest : ∀ {p}, p <+: data.drop n → data.take n ++ p <+: data := by
        intro p hp
        obtain ⟨q, hq⟩ := hp
        exact ⟨q, by rw [List.append_assoc, hq, List.take_append_drop]⟩
      have hlen : n + (data.drop n).length = data.length := by
        rw [List.length_drop]
        omega
      refine ih hv.wf.later (fun p hp => ?_) (fun v' hv' => ?_) fun p v' hp hv' hdrain => ?_
      · rw [hwrote.stream, List.append_assoc]
        exact hJ _ (hrest hp)
      · have hdone := hwrote.append hv'
        rw [List.take_append_drop] at hdone
        rw [Nat.add_assoc, hlen]
        exact hsome v' hdone
      · refine hnone _ v' (hrest hp) (hwrote.append hv') fun hroom => ?_
        have htroom := hroom _ _ hut
        obtain ⟨hle, hlt⟩ := hdrain hroom
        have hplt := hlt hdrop
        rw [List.length_append, hnlen]
        have hpos : 0 < n := by omega
        exact ⟨by omega, fun _ => by omega⟩

/-- **A write in the mode of the buffer.** -/
theorem meets_writeNoLock {Q : Option ℕ → Channel → Prop} {rounds : ℕ}
    (h : Later s s.ring.pBuffer u) (hJ : ∀ p, Lets s.ring.flags data p → J (s.stream ++ p))
    (hQ : ∀ r p t, Wrote s p t → Outcome R rounds s data r p → Q r t) :
    (writeNoLock rounds data).Meets R (Inv J) Q u := by
  have hJs : J s.stream := by simpa using hJ [] lets_nil
  simp only [writeNoLock, meets_bind]
  refine meets_load_later hR h hJs fun u' _ hu' => ?_
  rw [hu'.flags]
  split
  · rename_i hflags
    rw [meets_bind]
    refine meets_getAvailWriteSpace hR hu' hJs fun t v ht hv hJt => ?_
    have hblock : s.ring.flags ≠ blockIfFifoFull := by
      rw [hflags]
      decide
    split
    · -- no room when the read offset was read
      refine hQ _ [] v (ht.wrote.append hv.wrote)
        (.returned lets_nil (fun h => absurd h hblock) fun _ hfits => ?_)
      have hroom := ht.room
      omega
    · have hlets : Lets s.ring.flags data data := by
        rw [hflags]
        exact .inr rfl
      rw [meets_bind]
      exact meets_writeNoCheck hR ht.wf (ht.pBuffer ▸ hv) hJt (ht.stream ▸ hJ _ hlets) (by omega)
        fun v' hv' => hQ _ data v' (ht.wrote.append hv')
          (.returned hlets (fun _ => rfl) fun _ _ => rfl)
  split
  · rename_i hflags
    rw [meets_bind]
    refine meets_getAvailWriteSpace hR hu' hJs fun t v ht hv hJt => ?_
    have hblock : s.ring.flags ≠ blockIfFifoFull := by
      rw [hflags]
      decide
    generalize hstatus : (if t.room < data.length then t.room else data.length) = status
    have hlets : Lets s.ring.flags data (data.take status) := by
      rw [hflags]
      exact List.take_prefix ..
    have hlen : (data.take status).length = status := by
      rw [List.length_take]
      split_ifs at hstatus <;> omega
    rw [meets_bind]
    refine meets_writeNoCheck hR ht.wf (ht.pBuffer ▸ hv) hJt (ht.stream ▸ hJ _ hlets)
      (by split_ifs at hstatus <;> omega)
      fun v' hv' => hQ _ (data.take status) v' (ht.wrote.append hv') ?_
    have hfits : data.length ≤ s.room → data.take status = data := by
      intro hfits
      have hroom := ht.room
      rw [if_neg (by omega)] at hstatus
      rw [← hstatus, List.take_length]
    have hreturned : Outcome R rounds s data (some (data.take status).length) (data.take status) :=
      .returned hlets (fun h => absurd h hblock) fun _ => hfits
    rwa [hlen] at hreturned
  split
  · rename_i hflags
    have hletsiff : ∀ p, Lets s.ring.flags data p ↔ p <+: data := by
      intro p
      rw [hflags]
      exact Iff.rfl
    simp only [writeBlocking, meets_bind]
    refine meets_wrOff hR hu' hJs fun v hv => ?_
    refine meets_writeBlockingFrom hR hv (fun p hp => hJ p ((hletsiff p).2 hp)) (fun t ht => ?_)
      fun p t hp ht hdrain => ?_
    · rw [Nat.zero_add]
      exact hQ _ data t ht
        (.returned ((hletsiff _).2 List.prefix_rfl) (fun _ => rfl) fun _ _ => rfl)
    · refine hQ _ p t ht ⟨(hletsiff _).2 hp, fun _ h => (nomatch h), fun _ => hflags,
        fun _ h => absurd rfl h, ?_, ?_⟩
      · rintro (hskip | htrim)
        · exact absurd (hflags.symm.trans hskip) (by decide)
        · exact absurd (hflags.symm.trans htrim) (by decide)
      · -- each round has let a byte through, and there are not that many
        intro hroom hpos hle
        obtain ⟨hrounds, hlt⟩ := hdrain hroom
        have hplen := hp.length_le
        have hplt := hlt (List.ne_nil_of_length_pos (by omega))
        omega
  · rename_i hskip htrim hblock
    refine hQ _ [] u' hu'.wrote (.returned lets_nil (fun h => absurd h hblock) ?_)
    rintro (hflags | hflags)
    · exact absurd hflags hskip
    · exact absurd hflags htrim

/-- **The faster write for skip mode**, whatever the mode. -/
theorem meets_writeSkipNoLock {Q : ℕ → Channel → Prop} (h : Later s s.ring.pBuffer u)
    (hJ : J s.stream) (hJ' : J (s.stream ++ data))
    (hnone : ∀ t, s.room < data.length → Wrote s [] t → Q 0 t)
    (hall : ∀ t, Wrote s data t → Q 1 t) : (writeSkipNoLock data).Meets R (Inv J) Q u := by
  simp only [writeSkipNoLock, meets_bind]
  refine meets_rdOff hR h hJ fun t _ ht hlater hJt => ?_
  have hrd := ht.wf.rdOff_lt
  have hwr := ht.wf.wrOff_lt
  have hroom := ht.room
  have havail := availSpace_eq ht.wf
  have hJt' : J (t.stream ++ data) := by rwa [ht.stream]
  have hdone : ∀ v, Wrote t data v → Q 1 v := fun v hv => hall v (ht.wrote.append hv)
  refine meets_wrOff hR hlater hJt fun v hv => meets_size hR hv hJt fun v hv => ?_
  have hv' : Later t t.ring.pBuffer v := ht.pBuffer ▸ hv
  split_ifs at havail ⊢ <;> simp only [meets_bind, meets_pure]
  · exact meets_straight hR hv' hJt hJt' (by omega) (by omega) hdone
  · exact meets_straight hR hv' hJt hJt' (by omega) (by omega) hdone
  · exact meets_around hR ht.wf hv' hJt hJt' (by omega) (by omega) hdone
  · exact hnone v (by omega) (ht.wrote.append hv.wrote)
  · exact meets_straight hR hv' hJt hJt' (by omega) (by omega) hdone
  · exact hnone v (by omega) (ht.wrote.append hv.wrote)

end Functions

end Rtt

end AntTracer
