import AntTracer.App.Reread
import AntTracer.App.Requests

/-!
# Reading while a write is in progress

The command `store list` reads the store at any pass of the super loop, and
leaves what it read in the buffer and the staging area. Where these are not in
use, or the read happens to leave them as they are (`Quiet`), nothing is lost:
the soft device gets the words it was to write, and all that was saved is read
back (`undisturbed`). But the command does not look (`not_undisturbed`).
-/

namespace AntTracer

namespace App

/-! ## The command -/

/-- What happens to the store, the command included. -/
inductive ReadEvent
  | list
  | event (e : SystemEvent)

/-- A step of the store over many boots, with reads. -/
def readStep (t : Traced) : ReadEvent → Traced
  | .list => { t with store := storeList t.store }
  | .event e => tracedStep t e

/-- The run without the reads. -/
def unread (es : List ReadEvent) : List SystemEvent :=
  es.filterMap fun e => match e with
    | .list => none
    | .event e => some e

/-- **The read leaves alone what is in use.** -/
structure Quiet (s : Store) : Prop where
  /-- no record is being written, or there is nothing to read -/
  buffer : s.state = .writing → (findBounds storeRegion s.log.flash).newp = 0
  /-- the last configuration in the log is the copy that is still to be written -/
  copy : s.state = .config1 ∨ s.state = .config2 →
    ∀ c ∈ ((rawRecords storeRegion s.log.flash).filterMap configRead).getLast?,
      c = s.log.staging.config
  /-- while it is being written, all configurations in the log are -/
  slot : s.state = .config3 → s.log.sd ≠ none →
    ∀ c ∈ (rawRecords storeRegion s.log.flash).filterMap configRead, c = s.log.staging.config
  parked : Parked s

instance : DecidableEq Config := fun c c' =>
  decidable_of_iff (c.confArray = c'.confArray) (by cases c; cases c'; simp)

instance (s : Store) : Decidable (Parked s) :=
  decidable_of_iff (∀ p ∈ parts, p.flag s.opFlag = true → ∀ k : Fin 18, k.val < p.size →
      ∀ w ∈ ((rawRecords storeRegion s.log.flash).filterMap (wordRead k)).getLast?,
        w = s.log.staging.su.words k)
    ⟨fun h p => h p p.mem_parts, fun h p _ => h p⟩

instance (s : Store) : Decidable (Quiet s) :=
  decidable_of_iff ((s.state = .writing → (findBounds storeRegion s.log.flash).newp = 0) ∧
      (s.state = .config1 ∨ s.state = .config2 →
        ∀ c ∈ ((rawRecords storeRegion s.log.flash).filterMap configRead).getLast?,
          c = s.log.staging.config) ∧
      (s.state = .config3 → s.log.sd ≠ none →
        ∀ c ∈ (rawRecords storeRegion s.log.flash).filterMap configRead, c = s.log.staging.config) ∧
      Parked s)
    ⟨fun ⟨h₁, h₂, h₃, h₄⟩ => ⟨h₁, h₂, h₃, h₄⟩, fun h => ⟨h.buffer, h.copy, h.slot, h.parked⟩⟩

/-- The read of the start up leaves alone what waits. -/
def StartsQuiet (s : Store) : SystemEvent → Prop
  | .event .loop => s.state = .init0 → Parked s
  | _ => True

instance (s : Store) : ∀ e : SystemEvent, Decidable (StartsQuiet s e)
  | .event .loop => inferInstanceAs (Decidable (_ → _))
  | .event (.device _) | .event (.tick _) | .event (.change _) | .event .factory | .event (.save _)
  | .event (.info _) | .event (.chunk _) | .event (.exec _) | .reboot => .isTrue trivial

/-- **What is asked of a step**: reads are quiet, no power loss cuts a save,
and the sequence number does not run out. -/
def Calm (t : Traced) : ReadEvent → Prop
  | .list => Quiet t.store
  | .event e => Whole t e ∧ Numbering t e ∧ StartsQuiet t.store e

instance (t : Traced) : ∀ e : ReadEvent, Decidable (Calm t e)
  | .list => inferInstanceAs (Decidable (Quiet t.store))
  | .event _ => inferInstanceAs (Decidable (_ ∧ _))

/-! ## What is promised -/

/-- The words of a write that is outstanding are where they were. -/
def SourceKept (s s' : Store) : Prop :=
  ∀ dst src cnt ws, s.log.sd = some (.write dst src cnt ws) → s'.log.sd ≠ none →
    ∀ i < cnt, s'.log.ram src i = s.log.ram src i

/-- **The soft device finds the words**, after each step, and after each word
of a read. -/
def SourceSafe (t : Traced) : ReadEvent → Prop
  | .list => SourceKept t.store (storeList t.store) ∧
      ∀ ws, ws <+: stream storeRegion t.store.log.flash → SourceKept t.store
        (importWords (storeReader false) ws (importReset (storeReader false) t.store))
  | .event e => SourceKept t.store (systemStep t.store e)

/-- **What was saved is read back.** -/
structure Undisturbed (t : Traced) : Prop where
  /-- the records handed to `wrGo` are the ones asked for -/
  asked : t.store.log.words = t.store.wanted
  /-- the next boot finds those that were completed -/
  records : Recovered t.store.boot.log
  /-- the last configuration saved is in its slot, or a newer one in the log -/
  held : ∀ c, t.last = some c → (c ∈ slotConfigs t.store.log.flash ∧ c.Valid) ∨
    ∃ c', Logged t.store.log c' ∧ c.number < c'.number
  /-- and the next boot loads it, unless a save is in progress -/
  loaded : ∀ c, t.last = some c → ¬ InSave t.store → t.store.boot.config = c

/-! ## A read -/

section Read

variable {s s' : Store}

/-- The configurations in the log are the one in the staging area. -/
theorem config_kept {ls : List (List Word)} {l : Log}
    (h : ∀ c ∈ (ls.filterMap configRead).getLast?, c = l.staging.config) :
    (deliverAll deliver ls l).staging.config = l.staging.config := by
  rw [deliverAll_config]
  cases hlast : (ls.filterMap configRead).getLast? with
  | none => rfl
  | some c => exact h c hlast

/-- While the copy is being written, the read does not touch it. -/
theorem Quiet.last (h : Quiet s) (hs : s.state = .config3) (hsd : s.log.sd ≠ none) :
    ∀ c ∈ ((rawRecords storeRegion s.log.flash).filterMap configRead).getLast?,
      c = s.log.staging.config := fun c hc => h.slot hs hsd c (List.mem_of_getLast? hc)

/-- **A quiet read** leaves a store that agrees on what is in use. -/
theorem Alike.list (h : Alike s s') (hq : Quiet s') : Alike s (storeList s') := by
  by_cases hw : s.state = .writing
  · rw [storeList_of_newp (hq.buffer (h.state_eq.trans hw))]
    exact h
  obtain ⟨b₁, hlist⟩ := storeList_eq s'
  obtain ⟨st₁, hdeliver⟩ := deliverAll_eq (rawRecords storeRegion s'.log.flash) s'.log
  have hconfig : (∀ c ∈ ((rawRecords storeRegion s'.log.flash).filterMap configRead).getLast?,
      c = s'.log.staging.config) → (storeList s').log.staging.config = s'.log.staging.config := by
    rw [hlist]
    exact fun hc => config_kept hc
  have hsu : ∀ p : Part, p.flag s'.opFlag = true → ∀ k : Fin 18, k.val < p.size →
      (storeList s').log.staging.su.words k = s'.log.staging.su.words k := by
    rw [hlist]
    exact fun p hp k hk => hq.parked.deliverAll hp hk
  have hasked : (storeList s').asked = s'.asked := by rw [hlist]
  have hsame : ∃ b st acc u, storeList s' = s.reread b st acc u := by
    rw [hlist, hdeliver]
    obtain ⟨b, st, acc, u, rfl⟩ := h.same
    exact ⟨_, _, _, _, rfl⟩
  have hflags : s'.opFlag = s.opFlag := by
    obtain ⟨b, st, acc, u, rfl⟩ := h.same
    rfl
  have hsd : s'.log.sd = s.log.sd := by
    obtain ⟨b, st, acc, u, rfl⟩ := h.same
    rfl
  refine ⟨h.flow, hsame, fun hs => absurd hs hw, fun hs => ?_, fun hbusy hop i hi =>
    ?_, fun p hp k hk => ?_, h.erasing, h.slot, h.asked⟩
  · have hs' : s.state = .config1 ∨ s.state = .config2 := by
      rcases hs with hs | hs | ⟨hs, -⟩
      · exact Or.inl hs
      · exact Or.inr hs
      · exact absurd hs hw
    rw [hconfig (hq.copy (by rw [h.state_eq]; exact hs'))]
    exact h.copy hs
  · rcases h.flow.waits hbusy with hs | hs | hs
    · exact absurd hs hw
    · rw [h.erasing hs] at hop
      cases hop
    · have hlast := hconfig (hq.last (h.state_eq.trans hs) (by rw [hsd]; exact hbusy))
      have hwords := h.words hbusy hop i hi
      rw [h.slot hs] at hwords ⊢
      rw [← hwords]
      exact congrArg (fun c : Config => c.words.getD i 0#32) hlast
  · rw [hsu p (by rw [hflags]; exact hp) k hk, hasked]
    exact h.parked p hp k hk

/-! ## Other events -/

/-- Other events than passes and requests leave alone what is in use. -/
theorem Alike.congr {t t' : Store} (h : Alike s s') (hflow : Flow t)
    (hsame : ∃ b st acc u, t' = t.reread b st acc u) (hstate : t.state = s.state)
    (hsaved : t.savedState = s.savedState) (hlog : t.log = s.log) (hlog' : t'.log = s'.log)
    (hflags : ∀ p : Part, p.flag t.opFlag = p.flag s.opFlag) (hasked : t.asked = s.asked)
    (hasked' : t'.asked = s'.asked) (hwanted : t.wanted = s.wanted) : Alike t t' := by
  refine ⟨hflow, hsame, ?_, ?_, ?_, fun p hp => ?_, ?_, ?_, ?_⟩
  · rw [hstate, hlog, hlog']
    exact h.buffer
  · rw [hstate, hsaved, hlog, hlog']
    exact h.copy
  · rw [hlog, hlog']
    exact h.words
  · rw [hlog, hlog', hasked, hasked']
    exact h.parked p ((hflags p).symm.trans hp)
  · rw [hstate, hlog]
    exact h.erasing
  · rw [hstate, hlog]
    exact h.slot
  · rw [hlog, hwanted]
    exact h.asked

/-- **A request** for a part of a software update. -/
theorem Alike.request (h : Alike s s') {p : Part} {f : Union → Union}
    (hflow : Flow { setUnion f s with opFlag := p.set s.opFlag })
    (hset : ∀ u u' : Union, ∀ k : Fin 18, k.val < p.size → (f u).words k = (f u').words k)
    (hkeep : ∀ u u' : Union, ∀ k, u.words k = u'.words k → (f u).words k = (f u').words k) :
    Alike { setUnion f s with opFlag := p.set s.opFlag }
      { setUnion f s' with opFlag := p.set s'.opFlag } := by
  have hbuffer := h.buffer
  have hcopy := h.copy
  have hwords := h.words
  have hparked := h.parked
  have hasked := h.asked
  have herasing := h.erasing
  have hslot := h.slot
  obtain ⟨b, st, acc, u, rfl⟩ := h.same
  refine ⟨hflow, ⟨b, _, acc, _, rfl⟩, hbuffer, hcopy, fun hsd hop i hi => ?_, fun q hq k hk =>
    ?_, herasing, hslot, hasked⟩
  · have hram := hwords hsd hop i hi
    revert hram
    change (s.log.reread b st acc).ram s.log.flashSource i = s.log.ram s.log.flashSource i →
      Log.ram _ s.log.flashSource i = Log.ram _ s.log.flashSource i
    cases s.log.flashSource <;> exact id
  · by_cases hkp : k.val < p.size
    · exact ⟨hset _ _ k hkp, hset _ _ k hkp, hset _ _ k hkp⟩
    · -- the word belongs to a request that waited before
      have hq' : q.flag s.opFlag = true := by
        revert hq hk hkp
        cases p <;> cases q <;> first
          | exact fun hq _ _ => hq
          | exact fun _ hk hkp => absurd hk hkp
      have hwait : s.opFlag.su = true := by
        rcases hf : s.opFlag with ⟨_, _ | _, _ | _, _ | _⟩ <;> rw [hf] at hq' <;> cases q <;>
          first | rfl | cases hq'
      obtain ⟨h₁, h₂, h₃⟩ := hparked q hq' k hk
      have hu : (setUnion f (s.reread b st acc u)).asked = f u := by
        change f (if s.opFlag.su = true then u else st.su) = f u
        rw [if_pos hwait]
      have hs : (setUnion f s).asked = f s.asked := by
        change f (if s.opFlag.su = true then s.asked else s.log.staging.su) = f s.asked
        rw [if_pos hwait]
      dsimp only
      rw [hu, hs]
      exact ⟨hkeep _ _ k h₁, hkeep _ _ k h₂, hkeep _ _ k h₃⟩

/-- **The soft device** sees no difference. -/
theorem Alike.device (h : Alike s s') (e : SdEvent) :
    Alike { s with log := sdEvent s.log e } { s' with log := sdEvent s'.log e } := by
  have hflow := h.flow.device e
  have hbuffer := h.buffer
  have hcopy := h.copy
  have hwords := h.words
  have hparked := h.parked
  have hasked := h.asked
  have herasing := h.erasing
  have hslot := h.slot
  have hwait := h.flow.outstanding
  obtain ⟨b, st, acc, u, rfl⟩ := h.same
  have hlog : sdEvent (s.reread b st acc u).log e = (sdEvent s.log e).reread b st acc :=
    reread_sdEvent hwait hwords e
  have hnone : (sdEvent s.log e).sd ≠ none → s.log.sd ≠ none := by
    intro hsd hsd'
    rw [sdEvent_of_none hsd'] at hsd
    exact hsd hsd'
  have hhanded := sdEvent_words s.log e
  rw [hlog]
  obtain ⟨flash, sd, fc, tries, rs, written, refused, hbeside⟩ := sdEvent_beside s.log e
  rw [hbeside] at hflow hnone hhanded ⊢
  refine ⟨hflow, ⟨b, st, acc, u, rfl⟩, hbuffer, hcopy, fun hsd hop i hi => ?_, hparked,
    herasing, hslot, hhanded.trans hasked⟩
  have hram := hwords (hnone hsd) hop i hi
  revert hram
  change (s.log.reread b st acc).ram s.log.flashSource i = s.log.ram s.log.flashSource i →
    Log.ram _ s.log.flashSource i = Log.ram _ s.log.flashSource i
  cases s.log.flashSource <;> exact id

theorem alike_startUp (h : s.log.words = s.wanted) : Alike (startUp s) (startUp s) :=
  alike_free (u := (startUp s).asked) (flow_startUp s) (Or.inl rfl)
    (fun p hp => by cases p <;> cases hp)
    ((words_noteStatus .cut s.log.records).trans h)

/-- **Every event** keeps the stores alike. -/
theorem Alike.step (h : Alike s s') {e : SystemEvent} (hp : StartsQuiet s' e) :
    Alike (systemStep s e) (systemStep s' e) := by
  have hflow := h.flow.step e
  cases e with
  | reboot =>
    have hstart : startUp s' = startUp s := by
      obtain ⟨b, st, acc, u, rfl⟩ := h.same
      rfl
    change Alike (startUp s) (startUp s')
    rw [hstart]
    exact alike_startUp h.asked
  | event e =>
    cases e with
    | loop => exact h.loop 7 s s' hp
    | device e => exact h.device e
    | tick | change | factory =>
      refine h.congr hflow ?_ rfl rfl rfl rfl (fun _ => rfl) rfl rfl rfl
      obtain ⟨b, st, acc, u, rfl⟩ := h.same
      exact ⟨b, st, acc, u, rfl⟩
    | save =>
      refine h.congr hflow ?_ rfl rfl rfl rfl (fun p => by cases p <;> rfl) rfl rfl rfl
      obtain ⟨b, st, acc, u, rfl⟩ := h.same
      exact ⟨b, st, acc, u, rfl⟩
    | info sui =>
      refine @Alike.request _ _ h .hdr (fun u => u.setSui sui) hflow
        (fun u u' k hk => ?_) fun u u' k hk => ?_
      · rw [Union.setSui_words, Union.setSui_words u', if_pos hk, if_pos hk]
      · rw [Union.setSui_words, Union.setSui_words u', hk]
    | chunk sud =>
      exact @Alike.request _ _ h .data (fun u => u.setSud sud) hflow
        (fun _ _ _ _ => rfl) fun _ _ _ _ => rfl
    | exec sux =>
      refine @Alike.request _ _ h .exec (fun u => u.setSux sux) hflow
        (fun u u' k hk => ?_) fun u u' k hk => ?_
      · rw [Union.setSux_words, Union.setSux_words u', if_pos hk, if_pos hk]
      · rw [Union.setSux_words, Union.setSux_words u', hk]

/-! ## The words of a write -/

/-- Where the words of an outstanding write come from. -/
theorem Alike.source (h : Alike s s') {dst cnt : ℕ} {src : Source} {ws : List Word}
    (hsd : s'.log.sd = some (.write dst src cnt ws)) :
    s'.state = .writing ∨ (s'.state = .config3 ∧ src = .config) := by
  have hsd₀ : s.log.sd = some (.write dst src cnt ws) := by
    obtain ⟨b, st, acc, u, rfl⟩ := h.same
    exact hsd
  have hbusy : s.log.sd ≠ none := by rw [hsd₀]; exact nofun
  rw [h.state_eq]
  cases h.flow.outstanding hbusy with
  | erasing op => rw [op.sd] at hsd₀; cases hsd₀
  | @writing dst' src' W j op =>
    rw [op.sd] at hsd₀
    cases hsd₀
    rcases h.flow.waits hbusy with hs | hs | hs
    · exact Or.inl hs
    · have hop := op.writeOp
      rw [h.erasing hs] at hop
      cases hop
    · exact Or.inr ⟨hs, op.source.symm.trans (h.slot hs)⟩
  | answered sd => exact absurd sd hbusy

/-- The copy is where it was. -/
theorem sourceKept_config (hs : ∀ dst src cnt ws, s.log.sd = some (.write dst src cnt ws) →
    src = .config)
    (hconfig : s'.log.staging.config = s.log.staging.config) : SourceKept s s' := by
  intro dst src cnt ws hsd _ i _
  rw [hs dst src cnt ws hsd]
  exact congrArg (fun c : Config => c.words.getD i 0#32) hconfig

/-- **A quiet read** leaves the words of a write alone, at every word. -/
theorem Alike.safe_list (h : Alike s s') (hq : Quiet s') :
    SourceKept s' (storeList s') ∧
      ∀ ws, ws <+: stream storeRegion s'.log.flash → SourceKept s'
        (importWords (storeReader false) ws (importReset (storeReader false) s')) := by
  by_cases hnone : ∀ dst src cnt ws, s'.log.sd ≠ some (.write dst src cnt ws)
  · exact ⟨fun dst src cnt ws hsd => absurd hsd (hnone dst src cnt ws),
      fun _ _ dst src cnt ws hsd => absurd hsd (hnone dst src cnt ws)⟩
  push Not at hnone
  obtain ⟨dst, src, cnt, ws, hsd⟩ := hnone
  rcases h.source hsd with hw | ⟨hs, -⟩
  · -- there is nothing to read
    have hnew := hq.buffer hw
    refine ⟨?_, fun ws hws => ?_⟩
    · rw [storeList_of_newp hnew]
      exact fun _ _ _ _ _ _ _ _ => rfl
    · have hstream : stream storeRegion s'.log.flash = [] := by
        rw [stream, hnew]
        rfl
      rw [hstream, List.prefix_nil] at hws
      rw [hws]
      intro _ src _ _ _ _ i _
      cases src <;> rfl
  · have hsrc : ∀ dst src cnt ws, s'.log.sd = some (.write dst src cnt ws) → src = .config :=
      fun dst src cnt ws hsd => by
        refine ((h.source hsd).resolve_left fun hw => ?_).2
        rw [hs] at hw
        cases hw
    have hbusy : s'.log.sd ≠ none := by rw [hsd]; exact Option.some_ne_none _
    refine ⟨sourceKept_config hsrc ?_, fun ws hws => sourceKept_config hsrc ?_⟩
    · obtain ⟨b, hlist⟩ := storeList_eq s'
      rw [hlist]
      exact config_kept (hq.last hs hbusy)
    · obtain ⟨b, himport, -⟩ := importWords_spec (storeReader_delivers false) ws
        (s := importReset (storeReader false) s') (p := none) rfl
      rw [himport, deliverAll_list]
      refine @config_kept _ (importReset (storeReader false) s').log fun c hc => ?_
      refine hq.slot hs hbusy c ?_
      -- what has been read so far is the beginning of what is read
      obtain ⟨rest, hrest⟩ := hws
      rw [rawRecords, ← hrest, Frames.frames_append, List.filterMap_append]
      exact List.mem_append_left _ (List.mem_of_getLast? hc)

/-- **Other events** leave them alone too. -/
theorem Alike.safe_event (h : Alike s s') (e : SystemEvent) : SourceKept s' (systemStep s' e) := by
  intro dst src cnt ws hsd hsd' i _
  cases e with
  | reboot => exact absurd rfl hsd'
  | event e =>
    cases e with
    | loop =>
      have hbusy : s.log.sd ≠ none := by
        obtain ⟨b, st, acc, u, rfl⟩ := h.same
        intro hnone
        rw [show (s.reread b st acc u).log.sd = s.log.sd from rfl, hnone] at hsd
        cases hsd
      have hfc : s'.log.flashComplete = s.log.flashComplete := by
        obtain ⟨b, st, acc, u, rfl⟩ := h.same
        rfl
      have hpass : storeSuperLoop s' = (s', false) := by
        refine storeSuperLoop_busy (by rw [h.state_eq]; exact h.flow.waits hbusy) ?_
        rw [hfc, (h.flow.outstanding hbusy).busy hbusy]
        exact Bool.false_ne_true
      change (storeSuperLoop s').1.log.ram src i = _
      rw [hpass]
    | device e =>
      obtain ⟨flash, sd, fc, tries, rs, written, refused, hbeside⟩ := sdEvent_beside s'.log e
      change (sdEvent s'.log e).ram src i = _
      rw [hbeside]
      cases src <;> rfl
    | tick | change | factory | save | info | chunk | exec => cases src <;> rfl

end Read

/-! ## Runs -/

section Runs

variable {t t' : Traced}

/-- The stores of the run, and of the run without the reads, are alike. -/
structure Shadows (t t' : Traced) : Prop where
  alike : Alike t.store t'.store
  prev : t'.prev = t.prev

theorem Shadows.last (h : Shadows t t') : t'.last = t.last := by
  obtain ⟨b, st, acc, u, heq⟩ := h.alike.same
  rw [Traced.last, Traced.last, h.prev, heq]
  rfl

/-- The sequence number runs out in both runs. -/
theorem Shadows.wraps (h : Shadows t t') {e : SystemEvent} (hw : Wraps t.store e) :
    Wraps t'.store e := by
  have hbuffer := h.alike.buffer
  obtain ⟨b, st, acc, u, heq⟩ := h.alike.same
  rw [heq] at hbuffer ⊢
  cases e with
  | reboot => exact hw
  | event e =>
    cases e with
    | loop =>
      obtain ⟨⟨hs, hflag⟩, hnum⟩ := hw
      refine ⟨⟨hs.imp id fun ⟨hwriting, hsaved, hfc, hgo⟩ => ⟨hwriting, hsaved, hfc, ?_⟩,
        hflag⟩, hnum⟩
      obtain ⟨b', hb', -⟩ := @follows_wrGo t.store.log b st acc (hbuffer hwriting)
      have hsnd := congrArg Prod.snd hb'
      exact hsnd.trans hgo
    | factory => exact hw
    | device | tick | change | save | info | chunk | exec => exact hw

theorem Shadows.inSave (h : Shadows t t') (hin : InSave t.store) : InSave t'.store := by
  obtain ⟨b, st, acc, u, heq⟩ := h.alike.same
  rw [heq]
  exact hin

/-- **The run without the reads.** -/
theorem shadows_run (es : List ReadEvent) : ∀ t t' : Traced, Shadows t t' →
    Runs.Each readStep Calm t' es →
    Shadows (Runs.run tracedStep t (unread es)) (Runs.run readStep t' es) ∧
      Runs.Each tracedStep Whole t (unread es) ∧ Runs.Each tracedStep Numbering t (unread es) ∧
      Runs.Each readStep SourceSafe t' es := by
  induction es with
  | nil => exact fun t t' h _ => ⟨h, trivial, trivial, trivial⟩
  | cons e es ih =>
    intro t t' h hcalm
    obtain ⟨hc, hrest⟩ := hcalm
    cases e with
    | list =>
      obtain ⟨hrun, hwhole, hnum, hun⟩ := ih t (readStep t' .list) ⟨h.alike.list hc, h.prev⟩ hrest
      exact ⟨hrun, hwhole, hnum, h.alike.safe_list hc, hun⟩
    | event e =>
      obtain ⟨hwhole, hnum, hpark⟩ := hc
      have hstep : Shadows (tracedStep t e) (readStep t' (.event e)) := by
        refine ⟨h.alike.step hpark, ?_⟩
        cases e with
        | reboot => exact h.last
        | event => exact h.prev
      obtain ⟨hrun, hwholes, hnums, hun⟩ := ih _ _ hstep hrest
      exact ⟨hrun, ⟨fun he hin => hwhole he (h.inSave hin), hwholes⟩,
        ⟨fun hw => hnum (h.wraps hw), hnums⟩, h.alike.safe_event e, hun⟩

end Runs

/-- What the boot accepts, it accepts at the level of the log. -/
theorem recovered_boot {s : Store} (h : Recovered (boot s.log)) : Recovered s.boot.log := by
  obtain ⟨b, hinit⟩ := init0_eq (startUp s)
  obtain ⟨st, hst⟩ := deliverAll_eq (rawRecords storeRegion (startUp s).log.flash) (startUp s).log
  obtain ⟨st', b', hread⟩ := readFlash_eq (powerLoss s.log)
  have hboot : s.boot = init0 (startUp s) := rfl
  have hlog : (startUp s).log = powerLoss s.log := rfl
  have hsame : s.boot.log.accepted = (boot s.log).accepted ∧
    s.boot.log.records = (boot s.log).records := by
    rw [hboot, hinit, hst, boot]
    dsimp only
    rw [hread, hlog, setUpWrite, setUpWrite]
    split <;> exact ⟨rfl, rfl⟩
  unfold Recovered
  rw [hsame.1, hsame.2]
  exact h

/-- **Reading does not disturb writing**, as long as it is quiet. -/
theorem undisturbed {flash : ℕ → Word} (h : Erased flash) (es : List ReadEvent)
    (hcalm : Runs.Each readStep Calm (Traced.first flash) es)
    (hadv : (Runs.run readStep (Traced.first flash) es).store.log.advances < 2 ^ 26 - 1) :
    Runs.Each readStep SourceSafe (Traced.first flash) es ∧
      Undisturbed (Runs.run readStep (Traced.first flash) es) := by
  have hwords : (Store.off flash).log.words = (Store.off flash).wanted := rfl
  have halike : Alike (Store.first flash) (Store.first flash) := alike_startUp hwords
  have hfirst : Shadows (Traced.first flash) (Traced.first flash) := ⟨halike, rfl⟩
  obtain ⟨hrun, hwhole, hnum, hun⟩ := shadows_run es _ _ hfirst hcalm
  refine ⟨hun, ?_⟩
  have hlast := hrun.last
  have hin := hrun.inSave
  have hasked := hrun.alike.asked
  have htracked := tracked_run h hwhole hnum
  obtain ⟨b, st, acc, u, heq⟩ := hrun.alike.same
  generalize Runs.run readStep (Traced.first flash) es = t' at *
  generalize Runs.run tracedStep (Traced.first flash) (unread es) = t at *
  have hadv' : t.store.log.advances < 2 ^ 26 - 1 := by
    rw [heq] at hadv
    exact hadv
  have hsecure := htracked.secure hadv'
  have hboot : t'.store.boot = t.store.boot := by
    rw [heq]
    rfl
  refine ⟨?_, ?_, fun c hc => ?_, fun c hc hrest => ?_⟩
  · rw [heq]
    exact hasked
  · rw [hboot]
    obtain ⟨tape, spare, hdisk, hlinked, hhi⟩ := (hsecure.sound.off hadv').tape
    exact recovered_boot (@Disk.recovered_boot t.store.log tape spare hdisk hlinked hhi)
  · rw [hlast] at hc
    have hheld := hsecure.held hc
    rw [heq]
    exact hheld
  · rw [hlast] at hc
    rw [hboot]
    exact hsecure.boot hadv' (fun hin' => hrest (hin hin')) hc

/-- A record of a software update, from the request to the end. -/
def execEvents (sux : SuExec) : List ReadEvent :=
  [.event (.event (.exec sux)), .event (.event .loop)] ++
    List.replicate 5 (.event (.event (.device .work))) ++
    [.event (.event (.device .success)), .event (.event .loop)]

/-- The command between two saves, and while a configuration is written. -/
def quietRun : List ReadEvent :=
  .event (.event .loop) :: execEvents ⟨1#32, 2#32⟩ ++
    [.list, .event (.event (.save true)), .event (.event .loop), .list] ++
    List.replicate 32 (.event (.event (.device .work))) ++
    [.event (.event (.device .success)), .event (.event .loop)]

/-- A record, and the command while a second one is written. -/
def loudRun : List ReadEvent :=
  .event (.event .loop) :: execEvents ⟨1#32, 2#32⟩ ++
    [.event (.event (.exec ⟨3#32, 4#32⟩)), .event (.event .loop), .list]

set_option maxRecDepth 100000 in
theorem undisturbed_quiet : Runs.Each readStep SourceSafe
    (Traced.first fun _ => erasedWord) quietRun ∧
    Undisturbed (Runs.run readStep (Traced.first fun _ => erasedWord) quietRun) :=
  undisturbed (fun _ _ _ => rfl) quietRun (by decide) (by decide)

set_option maxRecDepth 100000 in
/-- **The command takes the record out of the buffer** before it is written. -/
theorem not_undisturbed : ¬ Runs.Each readStep SourceSafe (Traced.first fun _ => erasedWord)
    loudRun := by
  intro h
  rw [show loudRun = loudRun.take 12 ++ [.list] from rfl, Runs.each_append] at h
  have hkept := h.2.1.1 65539 .buffer 2 [] (by decide) (by decide) 0 (by decide)
  revert hkept
  decide

end App

end AntTracer
