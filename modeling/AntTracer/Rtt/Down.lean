import AntTracer.Rtt.Buffer

/-!
# From the host to the target

`pending` is what the host has put into a down buffer and the target has not
taken out. What the host has typed is what the target has read followed by
what is pending, whenever the host types and however its steps fall between
the accesses of a read (`reads_stream`).
-/

namespace AntTracer

namespace Rtt

open Shared Shared.Code Circular Stores Relation

/-! ## The states of a buffer -/

namespace Channel

/-- How much of what is in the buffer the target can see. -/
def ready (s : Channel) : ℕ := gap s.ring.sizeOfBuffer s.ring.rdOff s.ring.wrOff

/-- What the target has not taken out. -/
def pending (s : Channel) : List Byte :=
  contents s.ring.sizeOfBuffer s.ring.pBuffer s.ring.rdOff
    (gap s.ring.sizeOfBuffer s.ring.rdOff s.cursor)

/-- The offsets are in order: the read offset as the host last read it, the
read offset, the write offset, where the host is. -/
structure DownWf (s : Channel) : Prop where
  rdOff_lt : s.ring.rdOff < s.ring.sizeOfBuffer
  wrOff_lt : s.ring.wrOff < s.ring.sizeOfBuffer
  cursor_lt : s.cursor < s.ring.sizeOfBuffer
  seen_lt : s.seen < s.ring.sizeOfBuffer
  rdOff_le : gap s.ring.sizeOfBuffer s.seen s.ring.rdOff ≤
    gap s.ring.sizeOfBuffer s.seen s.cursor
  wrOff_le : s.ready ≤ gap s.ring.sizeOfBuffer s.ring.rdOff s.cursor

end Channel

/-- The host has gone on, and typed some more. -/
structure Typed (s u : Channel) : Prop where
  wf : u.DownWf
  size : u.ring.sizeOfBuffer = s.ring.sizeOfBuffer
  rdOff : u.ring.rdOff = s.ring.rdOff
  ready : s.ready ≤ u.ready
  more : ∃ more, u.log = s.log ++ more ∧ u.pending = s.pending ++ more

/-- The target has read something, and the host has gone on. -/
structure Took (s : Channel) (d : List Byte) (u : Channel) : Prop where
  wf : u.DownWf
  size : u.ring.sizeOfBuffer = s.ring.sizeOfBuffer
  more : ∃ more, u.log = s.log ++ more ∧ s.pending ++ more = d ++ u.pending

variable {s t u : Channel} {a k n w : ℕ} {b : Byte} {l d : List Byte}

theorem Channel.DownWf.typed (h : s.DownWf) : Typed s s :=
  ⟨h, rfl, rfl, le_rfl, [], (List.append_nil _).symm, (List.append_nil _).symm⟩

theorem Typed.took (h : Typed s u) : Took s [] u :=
  ⟨h.wf, h.size, h.more.imp fun _ hm => ⟨hm.1, hm.2.symm⟩⟩

theorem Typed.trans (h : Typed s t) (h' : Typed t u) : Typed s u where
  wf := h'.wf
  size := h'.size.trans h.size
  rdOff := h'.rdOff.trans h.rdOff
  ready := h.ready.trans h'.ready
  more := by
    obtain ⟨m, hlog, hpend⟩ := h.more
    obtain ⟨m', hlog', hpend'⟩ := h'.more
    exact ⟨m ++ m', by rw [hlog', hlog, List.append_assoc], by
      rw [hpend', hpend, List.append_assoc]⟩

/-! ## The host -/

/-- **What the host types is behind what is pending.** -/
theorem Channel.DownWf.host (h : s.DownWf) (hstep : DownHost s t) : Typed s t := by
  obtain ⟨hrd, hwr, hcur, hseen, hrle, hwle⟩ := h
  have hpend := gap_add_gap hseen hrd hcur hrle
  cases hstep with
  | look =>
    refine ⟨⟨hrd, hwr, hcur, hrd, ?_, hwle⟩, rfl, rfl, le_rfl, [],
      (List.append_nil _).symm, (List.append_nil _).symm⟩
    simp only [gap_self, Nat.zero_le]
  | put b hne =>
    have hnext := next_eq hcur
    have hlt := gap_succ_lt hseen hcur (hnext ▸ hne)
    have hseengap : gap s.ring.sizeOfBuffer s.seen (next s.ring.sizeOfBuffer s.cursor) =
        gap s.ring.sizeOfBuffer s.seen s.cursor + 1 := by
      rw [hnext, gap_add_mod hseen hcur hlt]
    have hrdgap : gap s.ring.sizeOfBuffer s.ring.rdOff (next s.ring.sizeOfBuffer s.cursor) =
        gap s.ring.sizeOfBuffer s.ring.rdOff s.cursor + 1 := by
      rw [hnext, gap_add_mod hrd hcur (by omega)]
    refine ⟨⟨hrd, hwr, next_lt hcur, hseen, ?_, ?_⟩, rfl, rfl, le_rfl, [b], rfl, ?_⟩
    · exact hrle.trans (hseengap ▸ Nat.le_succ _)
    · exact hwle.trans (hrdgap ▸ Nat.le_succ _)
    · simp only [Channel.pending, Channel.put, hrdgap]
      exact contents_update b (add_gap hrd hcur) (by omega)
  | store =>
    refine ⟨⟨hrd, hcur, hcur, hseen, hrle, le_rfl⟩, rfl, rfl, hwle, [],
      (List.append_nil _).symm, (List.append_nil _).symm⟩

theorem Channel.DownWf.hosts (h : s.DownWf) (hsteps : ReflTransGen DownHost s t) : Typed s t := by
  induction hsteps with
  | refl => exact h.typed
  | tail _ hstep ih => exact ih.trans (ih.wf.host hstep)

/-! ## Reading -/

theorem Typed.trans_took (h : Typed s t) (h' : Took t d u) : Took s d u where
  wf := h'.wf
  size := h'.size.trans h.size
  more := by
    obtain ⟨m, hlog, hpend⟩ := h.more
    obtain ⟨m', hlog', hpend'⟩ := h'.more
    exact ⟨m ++ m', by rw [hlog', hlog, List.append_assoc], by
      rw [← hpend', hpend, List.append_assoc]⟩

/-- One read and then another. -/
theorem Took.append {d' : List Byte} (h : Took s d t) (h' : Took t d' u) :
    Took s (d ++ d') u where
  wf := h'.wf
  size := h'.size.trans h.size
  more := by
    obtain ⟨m, hlog, hpend⟩ := h.more
    obtain ⟨m', hlog', hpend'⟩ := h'.more
    exact ⟨m ++ m', by rw [hlog', hlog, List.append_assoc], by
      rw [← List.append_assoc, hpend, List.append_assoc, hpend', List.append_assoc]⟩

theorem Channel.DownWf.ready_le (h : s.DownWf) : s.ready ≤ s.pending.length := by
  rw [Channel.pending, contents_length]
  exact h.wrOff_le

/-- A pending byte stays where it is. -/
theorem Typed.getElem (h : Typed s u) {j : ℕ} (hj : j < s.pending.length) :
    u.ring.pBuffer ((s.ring.rdOff + j) % s.ring.sizeOfBuffer) = s.pending[j] := by
  obtain ⟨m, -, hpend⟩ := h.more
  have hju : j < u.pending.length := by
    rw [hpend, List.length_append]
    omega
  have hget : u.pending[j] = s.pending[j] := by
    simp only [hpend, List.getElem_append_left hj]
  rw [← hget, ← h.size, ← h.rdOff]
  simp only [Channel.pending, contents, List.getElem_map, List.getElem_range]

/-- What has been read is given up when the read offset is stored. -/
theorem Typed.store (hs : s.DownWf) (h : Typed s u) (hn : n ≤ s.ready)
    (hw : w = (s.ring.rdOff + n) % s.ring.sizeOfBuffer) :
    Took s (s.pending.take n) (u.setRdOff w) := by
  obtain ⟨⟨hrd, hwr, hcur, hseen, hrle, hwle⟩, hsz, hrdOff, hready, m, hlog, hpend⟩ := h
  rw [← hsz, ← hrdOff] at hw
  have hcurgap := gap_add_gap hseen hrd hcur hrle
  have hcurlt := gap_lt hseen hcur
  have hnu : n ≤ gap u.ring.sizeOfBuffer u.ring.rdOff u.ring.wrOff := hn.trans hready
  simp only [Channel.ready] at hwle
  have hw_lt : w < u.ring.sizeOfBuffer := hw ▸ Nat.mod_lt _ (by omega)
  have hrdw : gap u.ring.sizeOfBuffer u.ring.rdOff w = n := by
    rw [hw, gap_add_mod hrd hrd (by rw [gap_self]; omega), gap_self, Nat.zero_add]
  have hseenw : gap u.ring.sizeOfBuffer u.seen w =
      gap u.ring.sizeOfBuffer u.seen u.ring.rdOff + n := by
    rw [hw, gap_add_mod hseen hrd (by omega)]
  have hwwr := gap_add_gap hrd hw_lt hwr (hrdw.trans_le hnu)
  have hwcur := gap_add_gap hrd hw_lt hcur (hrdw.trans_le (hnu.trans hwle))
  refine ⟨⟨hw_lt, hwr, hcur, hseen, ?_, ?_⟩, hsz, m, hlog, ?_⟩
  · simp only [Channel.setRdOff]
    omega
  · simp only [Channel.setRdOff, Channel.ready]
    omega
  · -- the bytes up to there, and those from there on
    have hsplit : u.pending = contents u.ring.sizeOfBuffer u.ring.pBuffer u.ring.rdOff n ++
        (u.setRdOff w).pending := by
      simp only [Channel.pending, Channel.setRdOff, ← hwcur, hrdw, contents_add]
      rw [hw, contents_mod]
    have htake : contents u.ring.sizeOfBuffer u.ring.pBuffer u.ring.rdOff n = s.pending.take n := by
      have hprefix := congrArg (List.take n) (hpend.symm.trans hsplit)
      rw [List.take_append_of_le_length (hn.trans hs.ready_le),
        List.take_append_of_le_length contents_length.ge,
        List.take_of_length_le contents_length.le] at hprefix
      exact hprefix.symm
    rw [← hpend, hsplit, htake]

section Functions

variable {α : Type} {R : Channel → Channel → Prop} {I : Channel → Prop}
  (hR : ∀ {s t : Channel}, R s t → ReflTransGen DownHost s t)

include hR

theorem meets_load_typed {f : Channel → α} {Q : α → Channel → Prop} (h : Typed s u)
    (hI : ∀ d t, Took s d t → I t) (hQ : ∀ t, R u t → Typed s t → Q (f t) t) :
    (load f).Meets R I Q u := by
  refine meets_load fun t ht => ?_
  have hlater := h.trans (h.wf.hosts (hR ht))
  exact ⟨hI [] t hlater.took, hQ t ht hlater⟩

/-- `memcpy`, from cells that are in use. -/
theorem meets_memcpyFrom {Q : List Byte → Channel → Prop} {j : ℕ} (h : Typed s u)
    (hI : ∀ d t, Took s d t → I t)
    (ha : ∀ i < n, a + i = (s.ring.rdOff + (j + i)) % s.ring.sizeOfBuffer)
    (hj : j + n ≤ s.pending.length) (hQ : ∀ t, Typed s t → Q ((s.pending.drop j).take n) t) :
    (memcpyFrom a n).Meets R I Q u := by
  induction n generalizing a j u Q with
  | zero => exact hQ u h
  | succ n ih =>
    simp only [memcpyFrom, meets_bind]
    refine meets_load_typed hR h hI fun t _ ht => ?_
    have hbyte : t.ring.pBuffer a = s.pending[j] := by
      have hcell := ha 0 (Nat.succ_pos n)
      rw [Nat.add_zero, Nat.add_zero] at hcell
      rw [hcell, ht.getElem (by omega)]
    refine ih (j := j + 1) ht (fun i hi => ?_) (by omega) fun v hv => ?_
    · rw [← Nat.add_right_comm, Nat.add_assoc, ha (i + 1) (by omega)]
      congr 2
      omega
    · rw [hbyte]
      have hdrop := hQ v hv
      rwa [List.drop_eq_getElem_cons (by omega), List.take_succ_cons] at hdrop

theorem meets_readRest {Q : List Byte → Channel → Prop} {j size : ℕ} (hs : s.DownWf)
    (h : Typed s u) (hI : ∀ d t, Took s d t → I t)
    (hn : min (sub32 s.ring.wrOff a) size = n) (ha : a = (s.ring.rdOff + j) % s.ring.sizeOfBuffer)
    (han : a + n < s.ring.sizeOfBuffer) (hj : j + n ≤ s.ready)
    (hQ : ∀ t, Took s (s.pending.take (j + n)) t → Q (s.pending.take (j + n)) t) :
    (readRest s.ring.wrOff a size (s.pending.take j)).Meets R I Q u := by
  have hcell : ∀ i ≤ n, a + i = (s.ring.rdOff + (j + i)) % s.ring.sizeOfBuffer := by
    intro i hi
    rw [← Nat.add_assoc, ← Nat.mod_add_mod, ← ha, Nat.mod_eq_of_lt (by omega)]
  have hlen := hj.trans hs.ready_le
  have htake : s.pending.take j ++ (s.pending.drop j).take n = s.pending.take (j + n) := by
    rw [List.take_add]
  simp only [readRest, meets_bind, hn]
  refine meets_memcpyFrom hR h hI (fun i hi => hcell i hi.le) hlen fun t ht => ?_
  rw [htake]
  split
  · rw [meets_bind]
    refine meets_store fun v hv => ?_
    have hstore := (ht.trans (ht.wf.hosts (hR hv))).store hs hj (hcell n le_rfl)
    exact ⟨hI _ _ hstore, hQ _ hstore⟩
  · rename_i hnil
    rw [not_not] at hnil
    have hdone := hQ t
    rw [hnil] at hdone ⊢
    exact hdone ht.took

/-- **A read** takes what it finds when it reads the write offset, as much as
it has room for. -/
theorem meets_readNoLock {Q : List Byte → Channel → Prop} {size : ℕ} (h : Typed s u)
    (hI : ∀ d t, Took s d t → I t)
    (hQ : ∀ d t v w, Took s d t → R v w → s.ready ≤ w.ready → d.length = min w.ready size →
      Q d t) :
    (readNoLock size).Meets R I Q u := by
  simp only [readNoLock, meets_bind]
  refine meets_load_typed hR h hI fun t _ ht => ?_
  rw [ht.rdOff]
  refine meets_load_typed hR ht hI fun t hvt ht => ?_
  rw [← ht.rdOff]
  have hwf := ht.wf
  have hrd := hwf.rdOff_lt
  have hwr := hwf.wrOff_lt
  have hready := ht.ready
  have hlen := hwf.ready_le
  have hI' : ∀ d v, Took t d v → I v := fun d v hv => hI d v (ht.trans_took hv)
  have hdone : ∀ v n, n = min t.ready size → Took t (t.pending.take n) v →
      Q (t.pending.take n) v := by
    intro v n hn hv
    have htake : (t.pending.take n).length = n := by
      rw [List.length_take]
      omega
    exact hQ _ v _ t (ht.trans_took hv) hvt hready (htake.trans hn)
  split
  · -- around the end
    rename_i hlt
    have hgap : t.ready = t.ring.wrOff + t.ring.sizeOfBuffer - t.ring.rdOff := if_neg (by omega)
    simp only [meets_bind]
    refine meets_load_typed hR hwf.typed hI' fun u _ hu => ?_
    rw [hu.size]
    generalize hn : min (t.ring.sizeOfBuffer - t.ring.rdOff) size = n
    refine meets_memcpyFrom (j := 0) hR hu hI' (fun i hi => ?_) (by omega) fun v hv => ?_
    · rw [Nat.zero_add, Nat.mod_eq_of_lt (by omega)]
    rw [List.drop_zero]
    have ha : (if t.ring.rdOff + n = t.ring.sizeOfBuffer then 0 else t.ring.rdOff + n) =
        (t.ring.rdOff + n) % t.ring.sizeOfBuffer := by
      rw [mod_eq (by omega)]
      split_ifs <;> omega
    by_cases hend : t.ring.rdOff + n = t.ring.sizeOfBuffer
    · -- the end is reached
      rw [if_pos hend] at ha ⊢
      have hn' : min (sub32 t.ring.wrOff 0) (size - n) = min t.ring.wrOff (size - n) := by
        rw [sub32, if_pos (Nat.zero_le _), Nat.sub_zero]
      have hall : n + min t.ring.wrOff (size - n) = min t.ready size := by omega
      refine meets_readRest hR hwf hv hI' hn' ha (by omega) (by omega) fun v hv => ?_
      exact hdone v _ hall hv
    · rw [if_neg hend] at ha ⊢
      have hfull : min (sub32 t.ring.wrOff (t.ring.rdOff + n)) (size - n) = 0 := by
        rw [show size - n = 0 by omega, Nat.min_zero]
      have hall : n + 0 = min t.ready size := by omega
      refine meets_readRest hR hwf hv hI' hfull ha (by omega) (by omega) fun v hv => ?_
      exact hdone v _ hall hv
  · rename_i hle
    have hgap : t.ready = t.ring.wrOff - t.ring.rdOff := if_pos (not_lt.1 hle)
    have ha : t.ring.rdOff = (t.ring.rdOff + 0) % t.ring.sizeOfBuffer := by
      rw [Nat.add_zero, Nat.mod_eq_of_lt hrd]
    have hn : min (sub32 t.ring.wrOff t.ring.rdOff) size = min t.ready size := by
      rw [sub32, if_pos (not_lt.1 hle), hgap]
    refine meets_readRest (j := 0) hR hwf hwf.typed hI' hn ha (by omega) (by omega) fun v hv => ?_
    exact hdone v _ (Nat.zero_add _) hv

end Functions

end Rtt

end AntTracer
