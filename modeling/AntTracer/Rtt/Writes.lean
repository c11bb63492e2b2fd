import AntTracer.Rtt.Up

/-!
# What the host is shown

`debug.c` sets the mode of channel 0 and writes to it, over and over
(`writeEach`). At any time the bytes that have gone through are those of the
messages up to some point, in order: all of a message or none of it in skip
mode, the beginning of it in trim mode, and in blocking mode all of it before
anything else (`stream_writes`).
-/

namespace AntTracer

namespace Rtt

open Shared Shared.Code Circular Stores Relation

/-- Writes one after another, each in a mode of its own: `setMode` and
`SEGGER_RTT_Write`. There is no result while one waits. -/
def writeEach (rounds : ℕ) : List (Word × List Byte) → Code Channel (Option (List ℕ))
  | [] => pure (some [])
  | (flags, data) :: ms => do
    store (Channel.setFlags flags)
    let r ← writeNoLock rounds data
    match r with
    | none => pure none
    | some n => do
      let rs ← writeEach rounds ms
      pure (rs.map (n :: ·))

/-- `DebugPutAvail`, and writes after it. -/
def availThenWrite (rounds : ℕ) (ms : List (Word × List Byte)) :
    Code Channel (ℕ × Option (List ℕ)) := do
  let n ← getAvailWriteSpace
  let r ← writeEach rounds ms
  pure (n, r)

/-- What of a message has gone through when its write returns. -/
def Settles (flags : Word) (data p : List Byte) : Prop :=
  Lets flags data p ∧ (flags = blockIfFifoFull → p = data)

/-- What of the messages has gone through at some point. -/
def Passes : List (Word × List Byte) → List Byte → Prop
  | [], l => l = []
  | (flags, data) :: ms, l =>
    Lets flags data l ∨ ∃ p l', Settles flags data p ∧ Passes ms l' ∧ l = p ++ l'

/-- What of them has gone through when all writes have returned, and what
they have returned. -/
def AllSettle : List (Word × List Byte) → List ℕ → List Byte → Prop
  | [], rs, l => rs = [] ∧ l = []
  | (flags, data) :: ms, rs, l =>
    ∃ p rs' l', Settles flags data p ∧ AllSettle ms rs' l' ∧ rs = p.length :: rs' ∧ l = p ++ l'

/-- The host, any number of steps. -/
abbrev UpHosts : Channel → Channel → Prop := ReflTransGen UpHost

/-- The host looks, takes a byte if there is one, and stores how far it is. -/
def Channel.takeOne (s : Channel) : Channel :=
  let s := { s with seen := s.ring.wrOff }
  if s.cursor = s.seen then s
  else Channel.setRdOff (next s.ring.sizeOfBuffer s.cursor) { s with
    cursor := next s.ring.sizeOfBuffer s.cursor
    log := s.log ++ [s.ring.pBuffer s.cursor] }

theorem upHosts_takeOne (s : Channel) : UpHosts s s.takeOne := by
  have hlook : UpHost s { s with seen := s.ring.wrOff } := .look
  rw [Channel.takeOne]
  dsimp only
  split
  · exact .single hlook
  · rename_i hne
    exact .head hlook (.head (.take hne) (.single .store))

theorem runs_takeOne {α : Type} (c : Code Channel α) (s : Channel) :
    Runs UpHosts (c, s) (pure (c.among Channel.takeOne s).1, (c.among Channel.takeOne s).2) :=
  runs_among (fun s _ => upHosts_takeOne s) finds_trivial

variable {s t u : Channel} {l : List Byte} {ms : List (Word × List Byte)} {rounds : ℕ}
  {J : List Byte → Prop} {R : Channel → Channel → Prop}

theorem passes_nil : Passes ms [] := by
  cases ms with
  | nil => rfl
  | cons m ms => exact .inl lets_nil

/-- What there is to say when the writes end, by returning or by waiting. -/
structure Ends (R : Channel → Channel → Prop) (rounds : ℕ) (s : Channel)
    (ms : List (Word × List Byte)) (r : Option (List ℕ)) (l : List Byte) : Prop where
  passes : Passes ms l
  settles : ∀ rs, r = some rs → AllSettle ms rs l
  /-- Messages that fit, and are not to wait, all go through. -/
  fits : (∀ m ∈ ms, m.1 = noBlockSkip ∨ m.1 = noBlockTrim) →
    (ms.flatMap Prod.snd).length ≤ s.room →
    r = some (ms.map fun m => m.2.length) ∧ l = ms.flatMap Prod.snd
  drained : (∀ s t, R s t → 0 < t.room) → 0 < rounds → (∀ m ∈ ms, m.2.length ≤ rounds) →
    r ≠ none

/-- The mode can be set while nothing is being written. -/
theorem Later.setFlags (flags : Word) (h : Later s s.ring.pBuffer u) :
    Later (s.setFlags flags) s.ring.pBuffer (u.setFlags flags) :=
  ⟨⟨h.wf.rdOff_lt, h.wf.wrOff_lt, h.wf.cursor_lt, h.wf.seen_lt, h.wf.cursor_le, h.wf.seen_le⟩,
    h.pBuffer, h.size, h.wrOff, rfl, h.stream, h.room⟩

theorem meets_writeEach (hR : ∀ {s t : Channel}, R s t → UpHosts s t)
    {Q : Option (List ℕ) → Channel → Prop} (h : Later s s.ring.pBuffer u)
    (hJ : ∀ l, Passes ms l → J (s.stream ++ l))
    (hQ : ∀ r l t, t.UpWf → t.stream = s.stream ++ l → Ends R rounds s ms r l → Q r t) :
    (writeEach rounds ms).Meets R (Inv J) Q u := by
  induction ms generalizing s u Q with
  | nil =>
    refine hQ _ [] u h.wf (by rw [h.stream, List.append_nil]) ⟨rfl, ?_, ?_, ?_⟩
    · rintro rs ⟨⟩
      exact ⟨rfl, rfl⟩
    · exact fun _ _ => ⟨rfl, rfl⟩
    · exact fun _ _ _ hnone => absurd hnone (Option.some_ne_none _)
  | cons m ms ih =>
    obtain ⟨flags, data⟩ := m
    simp only [writeEach, meets_bind]
    refine meets_store fun t ht => ?_
    have hset := (h.hosts (hR ht)).setFlags flags
    have hJs : J (s.setFlags flags).stream := by
      simpa [Channel.stream, Channel.unread, Channel.setFlags] using hJ [] passes_nil
    refine ⟨hset.inv hJs, ?_⟩
    refine meets_writeNoLock hR hset (fun p hp => hJ p (.inl hp)) fun r p t ht hout => ?_
    have hroom : s.room ≤ t.room + p.length := ht.room
    cases r with
    | none =>
      refine hQ _ p t ht.wf ht.stream ⟨.inl hout.lets, ?_, ?_, ?_⟩
      · exact fun _ hrs => absurd hrs.symm (Option.some_ne_none _)
      · intro hmodes
        have hflags : flags = blockIfFifoFull := hout.waits rfl
        have hmode : flags = noBlockSkip ∨ flags = noBlockTrim := hmodes _ (List.mem_cons_self ..)
        rw [hflags] at hmode
        exact absurd hmode (by decide)
      · intro hroom hpos hlens
        exact absurd rfl (hout.drained hroom hpos (hlens _ (List.mem_cons_self ..)))
    | some n =>
      have hlen := hout.count n rfl
      have hsettles : Settles flags data p :=
      ⟨hout.lets, fun hb => hout.blocking hb (Option.some_ne_none n)⟩
      rw [meets_bind]
      refine ih ht.wf.later (fun l hl => ?_) fun r l v hv hstream hends => ?_
      · rw [ht.stream, List.append_assoc]
        exact hJ _ (.inr ⟨p, l, hsettles, hl, rfl⟩)
      · refine hQ _ (p ++ l) v hv ?_ ⟨.inr ⟨p, l, hsettles, hends.passes, rfl⟩, ?_, ?_, ?_⟩
        · rw [hstream, ht.stream, List.append_assoc]
          rfl
        · intro rs hrs
          obtain ⟨rs', hr, rfl⟩ := Option.map_eq_some_iff.1 hrs
          exact ⟨p, rs', l, hsettles, hends.settles rs' hr, by rw [hlen], rfl⟩
        · intro hmodes hfit
          rw [List.flatMap_cons, List.length_append] at hfit
          have hfit' : data.length + (ms.flatMap Prod.snd).length ≤ s.room := hfit
          have hp : p = data :=
            hout.fits (hmodes _ (List.mem_cons_self ..)) (Nat.le_of_add_right_le hfit')
          rw [hp] at hroom
          obtain ⟨hr, hl⟩ := hends.fits (fun m hm => hmodes m (List.mem_cons_of_mem _ hm))
            (by omega)
          rw [hr, hl, hp, ← hlen, hp]
          exact ⟨rfl, rfl⟩
        · intro hroom hpos hlens hnone
          exact hends.drained hroom hpos (fun m hm => hlens m (List.mem_cons_of_mem _ hm))
            (Option.map_eq_none_iff.1 hnone)

/-! ## Every interleaving -/

/-- **Nothing is lost, doubled or reordered.** Whatever the host does in
between, what it has taken out and what is left for it are what they were,
followed by what has gone through of the messages. -/
theorem stream_writes {c : Code Channel (Option (List ℕ))} (hs : s.UpWf)
    (hruns : Runs UpHosts (writeEach rounds ms, s) (c, t)) (hhost : UpHosts t u) :
    ∃ l, Passes ms l ∧ u.log ++ u.unread = s.log ++ s.unread ++ l ∧
      ∀ rs, c = pure (some rs) → AllSettle ms rs l := by
  have hmeets := meets_runs (meets_writeEach (fun h => h) hs.later
    (J := fun x => ∃ l, Passes ms l ∧ x = s.stream ++ l) (fun l hl => ⟨l, hl, rfl⟩)
    (Q := fun r t => t.UpWf ∧ ∃ l, t.stream = s.stream ++ l ∧ Ends UpHosts rounds s ms r l)
    fun r l t ht hstream hends => ⟨ht, l, hstream, hends⟩)
    ⟨hs, [], passes_nil, (List.append_nil _).symm⟩ hruns
  obtain ⟨⟨ht, l, hl, hstream⟩, hret⟩ := hmeets
  have hu : u.stream = t.stream := (ht.later.hosts hhost).stream
  by_cases hc : ∃ rs, c = pure (some rs)
  · obtain ⟨rs, rfl⟩ := hc
    obtain ⟨-, l', hstream', hends⟩ := hret
    refine ⟨l', hends.passes, hu.trans hstream', fun rs' hrs' => ?_⟩
    obtain rfl : rs = rs' := Option.some.inj (Code.ret.inj hrs')
    exact hends.settles rs rfl
  · exact ⟨l, hl, hu.trans hstream, fun rs hrs => absurd ⟨rs, hrs⟩ hc⟩

/-- A message in each mode, two of them longer than there is room for. -/
def threeModes : List (Word × List Byte) :=
  [(noBlockSkip, [65#8]), (noBlockTrim, [66#8, 67#8, 68#8, 69#8]),
    (blockIfFifoFull, [70#8, 71#8, 72#8, 73#8])]

/-- What the host has taken when they have been written, with the host at work
at each access. -/
def threeTaken : Channel := ((writeEach 3 threeModes).among Channel.takeOne (doInit 4)).2

theorem stream_writes_takeOne : threeTaken.log = [65#8, 66#8, 67#8, 68#8, 70#8, 71#8, 72#8] ∧
    ∃ l, Passes threeModes l ∧
      threeTaken.log ++ threeTaken.unread = (doInit 4).log ++ (doInit 4).unread ++ l ∧
      AllSettle threeModes [1, 3, 4] l := by
  have hruns : Runs UpHosts (writeEach 3 threeModes, doInit 4)
      (pure (some [1, 3, 4]), threeTaken) :=
    runs_takeOne (writeEach 3 threeModes) (doInit 4)
  obtain ⟨l, hl, hstream, hret⟩ := stream_writes (upWf_doInit (Nat.succ_pos 3)) hruns .refl
  exact ⟨by decide, l, hl, hstream, hret _ rfl⟩

/-- **A write does not wait for ever.** Where the host never leaves the
buffer full for the target to find, all writes return, after as many rounds
each as it has bytes at most. -/
theorem writes_drained {r : Option (List ℕ)} (hs : s.UpWf) (hrounds : 0 < rounds)
    (hlen : ∀ m ∈ ms, m.2.length ≤ rounds)
    (hruns : Runs (fun s t => UpHosts s t ∧ 0 < t.room) (writeEach rounds ms, s) (pure r, t)) :
    ∃ rs l, r = some rs ∧ AllSettle ms rs l ∧ t.log ++ t.unread = s.log ++ s.unread ++ l := by
  have hmeets := meets_runs (meets_writeEach (R := fun s t => UpHosts s t ∧ 0 < t.room)
    (fun h => h.1) hs.later (J := fun _ => True) (fun _ _ => trivial)
    (Q := fun r t => ∃ l, t.stream = s.stream ++ l ∧
      Ends (fun s t => UpHosts s t ∧ 0 < t.room) rounds s ms r l)
    fun r l t _ hstream hends => ⟨l, hstream, hends⟩) ⟨hs, trivial⟩ hruns
  obtain ⟨-, l, hstream, hends⟩ := hmeets
  obtain ⟨rs, rfl⟩ := Option.ne_none_iff_exists'.1 (hends.drained (fun _ _ h => h.2) hrounds hlen)
  exact ⟨rs, l, rfl, hends.settles rs rfl, hstream⟩

/-- What the host has taken of two bytes when one fits at a time. -/
def twoTaken : Channel :=
  ((writeEach 2 [(blockIfFifoFull, [65#8, 66#8])]).among Channel.takeOne (doInit 2)).2

theorem writes_drained_takeOne : ∃ rs l, (some [2] : Option (List ℕ)) = some rs ∧
    AllSettle [(blockIfFifoFull, [65#8, 66#8])] rs l ∧
      twoTaken.log ++ twoTaken.unread = (doInit 2).log ++ (doInit 2).unread ++ l :=
  have hruns := runs_among (R := fun s t => UpHosts s t ∧ 0 < t.room) (P := fun t => 0 < t.room)
    (fun s hroom => ⟨upHosts_takeOne s, hroom⟩) (by decide)
  writes_drained (upWf_doInit (Nat.succ_pos 1)) (Nat.succ_pos 1) (by decide) hruns

/-- **What was found to fit fits.** After `DebugPutAvail`, messages of that
many bytes in all go through as a whole, though none of their writes waits. -/
theorem writes_fit {n : ℕ} {r : Option (List ℕ)} (hs : s.UpWf)
    (hmodes : ∀ m ∈ ms, m.1 = noBlockSkip ∨ m.1 = noBlockTrim)
    (hruns : Runs UpHosts (availThenWrite rounds ms, s) (pure (n, r), t))
    (hfit : (ms.flatMap Prod.snd).length ≤ n) :
    r = some (ms.map fun m => m.2.length) ∧
      t.log ++ t.unread = s.log ++ s.unread ++ ms.flatMap Prod.snd := by
  have hmeets : (availThenWrite rounds ms).Meets UpHosts (Inv fun _ => True)
      (fun a t => (ms.flatMap Prod.snd).length ≤ a.1 →
        a.2 = some (ms.map fun m => m.2.length) ∧
          t.stream = s.stream ++ ms.flatMap Prod.snd) s := by
    simp only [availThenWrite, meets_bind]
    refine meets_getAvailWriteSpace (fun h => h) hs.later trivial fun v w hv hw _ => ?_
    refine meets_writeEach (fun h => h) (hv.pBuffer ▸ hw) (fun _ _ => trivial)
      fun r l t _ hstream hends hfit => ?_
    obtain ⟨hr, hl⟩ := hends.fits hmodes hfit
    exact ⟨hr, by rw [hstream, hv.stream, hl]⟩
  exact (meets_runs hmeets ⟨hs, trivial⟩ hruns).2 hfit

theorem writes_fit_takeOne :
    ((availThenWrite 1 [(noBlockSkip, [65#8, 66#8])]).among Channel.takeOne (doInit 4)).1.2 =
        some [2] ∧
      ((availThenWrite 1 [(noBlockSkip, [65#8, 66#8])]).among Channel.takeOne (doInit 4)).2.log ++
        ((availThenWrite 1 [(noBlockSkip, [65#8, 66#8])]).among Channel.takeOne
          (doInit 4)).2.unread = (doInit 4).log ++ (doInit 4).unread ++ [65#8, 66#8] :=
  writes_fit (upWf_doInit (Nat.succ_pos 3)) (by decide) (runs_takeOne _ _) (by decide)

/-! ## The faster write -/

/-- Alone, a write in skip mode does nothing or `_WriteNoCheck`. -/
theorem alone_writeNoLock {data : List Byte} (hs : s.UpWf) (hflags : s.ring.flags = noBlockSkip) :
    (writeNoLock rounds data).alone s = if s.room < data.length then (some 0, s)
      else (some data.length, ((writeNoCheck data).alone s).2) := by
  have havail : getAvailWriteSpace.alone s = (s.room, s) := by
    rw [← availSpace_eq hs]
    rfl
  simp only [writeNoLock, alone_bind, alone_load, hflags, if_true, havail]
  split <;> simp

theorem alone_writeSkipNoLock {data : List Byte} (hs : s.UpWf) :
    (writeSkipNoLock data).alone s = if s.room < data.length then (0, s)
      else (1, ((writeNoCheck data).alone s).2) := by
  have hrd := hs.rdOff_lt
  have hwr := hs.wrOff_lt
  have havail := availSpace_eq hs
  simp only [writeSkipNoLock, writeNoCheck, alone_load_bind, alone_ite]
  split_ifs at havail ⊢ <;> first | omega | rfl | simp only [alone_bind, alone_pure, alone_store]

/-- **The faster write is a write in skip mode**: alone the two leave the same
behind, and among the steps of the host it lets all through or nothing, and
nothing only where there was no room. -/
theorem writeSkipNoLock_agrees {data : List Byte} (hs : s.UpWf)
    (hflags : s.ring.flags = noBlockSkip) :
    ((writeSkipNoLock data).alone s).2 = ((writeNoLock rounds data).alone s).2 ∧
      (((writeSkipNoLock data).alone s).1 = 1 ↔
        ((writeNoLock rounds data).alone s).1 = some data.length) ∧
      ∀ n t, Runs UpHosts (writeSkipNoLock data, s) (pure n, t) →
        n = 1 ∧ t.log ++ t.unread = s.log ++ s.unread ++ data ∨
          n = 0 ∧ t.log ++ t.unread = s.log ++ s.unread ∧ s.room < data.length := by
  rw [alone_writeSkipNoLock hs, alone_writeNoLock hs hflags]
  refine ⟨by split <;> rfl, ?_, fun n t hruns => ?_⟩
  · split
    · exact iff_of_false Nat.zero_ne_one fun h => by injection h; omega
    · exact iff_of_true rfl rfl
  · have hmeets := meets_writeSkipNoLock (R := UpHosts) (J := fun _ => True)
      (Q := fun n t => n = 1 ∧ t.stream = s.stream ++ data ∨
        n = 0 ∧ t.stream = s.stream ∧ s.room < data.length) (fun h => h) hs.later trivial trivial
      (fun t hroom ht => .inr ⟨rfl, by rw [ht.stream, List.append_nil], hroom⟩)
      fun t ht => .inl ⟨rfl, ht.stream⟩
    exact (meets_runs hmeets ⟨hs, trivial⟩ hruns).2

theorem writeSkipNoLock_agrees_takeOne :
    ((writeSkipNoLock [65#8]).alone (doInit 4)).2 = ((writeNoLock 1 [65#8]).alone (doInit 4)).2 ∧
      ((writeSkipNoLock [65#8]).among Channel.takeOne (doInit 4)).2.log ++
        ((writeSkipNoLock [65#8]).among Channel.takeOne (doInit 4)).2.unread =
          (doInit 4).log ++ (doInit 4).unread ++ [65#8] := by
  obtain ⟨halone, -, hall⟩ :=
    @writeSkipNoLock_agrees (doInit 4) 1 [65#8] (upWf_doInit (Nat.succ_pos 3)) rfl
  rcases hall 1 _ (runs_takeOne _ _) with ⟨-, hstream⟩ | ⟨hnone, -⟩
  · exact ⟨halone, hstream⟩
  · cases hnone

end Rtt

end AntTracer
