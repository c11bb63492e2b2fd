import AntTracer.App.Capacity
import AntTracer.App.Discipline
import AntTracer.System.Flash
import AntTracer.Loader.Interrupted

/-!
# A software update in the store

The application writes an update to the store, record by record, and the boot
loader applies it at the next reset. Whatever else the application stores,
and wherever the power is lost in one program or the other: when the records
of the update are completed and no newer header is there, a reset installs it
(`Stored.installs`). Before the request to execute is stored the boot loader
has nothing to do (`Newest.not_past`). Neither program writes behind the
configuration page (`frame_run`).
-/

namespace AntTracer

namespace System

open App (Store Appended Log Between Round StoreEvent storeStep storeSuperLoop startUp Resting
  storeStart configStart)
open Loader (StoreRecord Comparator Boots Interrupted InPages Insane Pending Truthful Returns
  Applies Selects Complete PastSearch decode storeRecords uicr₂ mapEnd
  Foreign)

/-! ## Resets -/

/-- The store, with what the boot loader has left in flash. -/
def onFlash (flash : ℕ → Byte) (s : Store) : Store :=
  { s with log := { s.log with flash := wordsOf flash } }

/-- A step of the device. -/
inductive Step (m : Comparator) (s : Store) : Store → Prop
  | event (e : StoreEvent) : Step m s (storeStep s e)
  /-- a reset: the boot loader, with power losses, and then the application -/
  | reset {flash : ℕ → Byte} (h : Boots m uicr₂ (bytesOf s.log.flash) flash) :
    Step m s (startUp (onFlash flash s))

section Resets

variable {s : Store} {flash : ℕ → Byte}

/-- **A reset** finds the store as before, if the boot loader leaves what is
not below it. -/
theorem sound_onFlash (h : App.Sound s) (hadv : s.log.advances < 2 ^ 26 - 1)
    (hsame : ∀ a, storeStart ≤ a → wordsOf flash a = s.log.flash a) :
    App.Sound (startUp (onFlash flash s)) := by
  have hslots : App.Slots (wordsOf flash) :=
    h.slots.congr fun a ha _ => hsame a (by simp only [storeStart, configStart] at *; omega)
  have hoff := h.off hadv
  obtain ⟨t, spare, hdisk, hlinked, hhi⟩ := hoff.tape
  refine ⟨hslots, App.numbered_configInitialize (s := App.powerOff (onFlash flash s)) hslots, ?_,
    ⟨rfl, rfl, rfl, hoff.settled, t, spare, hdisk.congr fun a ha _ => hsame a ha, hlinked, hhi⟩⟩
  change ∀ ws ∈ (App.noteStatus .cut s.log.records).map Appended.words, _
  rw [App.words_noteStatus]
  exact h.words

end Resets

/-! ## History -/

section History

variable {s s' : Store}

theorem words_startUp (flash : ℕ → Byte) (s : Store) :
    (startUp (onFlash flash s)).log.words = s.log.words :=
  App.words_noteStatus .cut s.log.records

variable {m : Comparator}

/-- **The history only grows.** -/
theorem Step.grows (h : Step m s s') (hrest : Resting s) :
    Resting s' ∧ s.log.words <+: s'.log.words := by
  cases h with
  | event e => exact hrest.step e
  | reset =>
    rw [words_startUp]
    exact ⟨⟨Or.inl rfl, fun h => by cases h⟩, List.prefix_rfl⟩

end History

/-! ## Where the boot loader writes -/

/-- All headers that were asked for end below the store. -/
def Below (l : Log) : Prop :=
  ∀ ws ∈ l.words, ∀ i, decode ws = some (.info i) → ¬ Insane i → i.stop.toNat ≤ mapEnd

theorem Below.of_prefix {l l' : Log} (h : Below l') (hpre : l.words <+: l'.words) : Below l :=
  fun ws hws => h ws (hpre.subset hws)

/-- What the boot loader reads was handed to `wrGo`. -/
theorem Reads.mem_words {l : Log} {sel : List ℕ} (h : Reads l sel) {r : StoreRecord}
    (hr : r ∈ storeRecords uicr₂ (bytesOf l.flash)) : ∃ ws ∈ l.words, decode ws = some r := by
  rw [h.records] at hr
  obtain ⟨i, -, hi⟩ := List.mem_filterMap.1 hr
  obtain ⟨a, ha, hdec⟩ := Option.bind_eq_some_iff.1 hi
  exact ⟨a.words, List.mem_map_of_mem (List.mem_of_getElem? ha), hdec⟩

/-- The pages of an update below the store are below it. -/
theorem inPages_below {h : SuInfo} (hstop : h.stop.toNat ≤ mapEnd) :
    ∀ a, InPages h a → a < uicr₂.storeStart.toNat := by
  rintro a ⟨-, ha⟩
  have hstart : uicr₂.storeStart.toNat = mapEnd := rfl
  rw [hstart]
  simp only [Loader.flashPage, mapEnd] at *
  omega

/-- An update the boot loader would apply is pending. -/
theorem pending_of_past {l : Log} {sel : List ℕ} {m : Comparator} (h : Reads l sel)
    (hbelow : Below l) (hpast : PastSearch m uicr₂ (bytesOf l.flash)) :
    ∃ i, Pending uicr₂ (bytesOf l.flash) i ∧ i.stop.toNat ≤ mapEnd := by
  obtain ⟨hbad, pre, i, post, hrs, ha⟩ := Loader.pastSearch_iff.1 hpast
  have hmem : StoreRecord.info i ∈ storeRecords uicr₂ (bytesOf l.flash) := by
    rw [hrs]
    exact List.mem_append_right _ (List.mem_cons_self ..)
  obtain ⟨ws, hws, hdec⟩ := h.mem_words hmem
  have hstop := hbelow ws hws i hdec ha.selects.sane
  exact ⟨i, ⟨hbad, ⟨pre, post, hrs, ha⟩, inPages_below hstop⟩, hstop⟩

/-- **A reset leaves the store**, and all that is behind it. -/
theorem reset_store {l : Log} {sel : List ℕ} {m : Comparator} {flash : ℕ → Byte} (h : Reads l sel)
    (hbelow : Below l) (hb : Boots m uicr₂ (bytesOf l.flash) flash) :
    ∀ a, mapEnd ≤ a → flash a = bytesOf l.flash a := by
  intro a ha
  by_cases hpast : PastSearch m uicr₂ (bytesOf l.flash)
  · obtain ⟨i, hp, hstop⟩ := pending_of_past h hbelow hpast
    refine hb.outside hp a fun hin => ?_
    have hlt : a < mapEnd := inPages_below hstop a hin
    omega
  · rw [hb.idle hpast]

theorem words_of_bytes {flash : ℕ → Byte} {f : ℕ → Word}
    (h : ∀ a, mapEnd ≤ a → flash a = bytesOf f a) :
    ∀ a, storeStart ≤ a → wordsOf flash a = f a := by
  intro a ha
  rw [wordsOf_congr fun b hb _ => h b ?_, wordsOf_bytesOf]
  simp only [storeStart, pageWords, mapEnd] at *
  omega

/-! ## Runs of the device -/

section Runs

variable {m : Comparator} {s s' : Store}

/-- **Each step of the device** keeps what holds between the passes. -/
theorem Step.between (h : Step m s s') (hs : Between s) (hbelow : Below s'.log) : Between s' := by
  obtain ⟨hrest, hpre⟩ := h.grows hs.resting
  cases h with
  | event e => exact hs.step e
  | reset hb =>
    refine ⟨hrest, fun hadv => ?_⟩
    obtain ⟨sel, hreads⟩ := reads_of_off ((hs.sound hadv).off hadv)
    exact sound_onFlash (hs.sound hadv) hadv
      (words_of_bytes (reset_store hreads (hbelow.of_prefix hpre) hb))

/-- **Whatever the device has been through.** -/
theorem between_run (hs : Between s) (hrun : Relation.ReflTransGen (Step m) s s') :
    Resting s' ∧ (Below s'.log → Between s') := by
  induction hrun with
  | refl => exact ⟨hs.resting, fun _ => hs⟩
  | tail _ hstep ih =>
    obtain ⟨hrest, hpre⟩ := hstep.grows ih.1
    exact ⟨hrest, fun hbelow => hstep.between (ih.2 (hbelow.of_prefix hpre)) hbelow⟩

theorem Step.flow (h : Step m s s') (hflow : App.Flow s) : App.Flow s' := by
  cases h with
  | event e => exact hflow.step (.event e)
  | reset => exact App.flow_startUp _

/-- It does not take back a page advance. -/
theorem Step.advances_le (h : Step m s s') (hrest : Resting s) :
    s.log.advances ≤ s'.log.advances := by
  cases h with
  | reset => exact le_rfl
  | event e =>
    cases e with
    | loop => exact App.rounds_advances (App.storeLoop_rounds 7 s hrest)
    | device e =>
      obtain ⟨flash', sd', fc, tries, rs', written', refused', hbeside⟩ :=
        App.sdEvent_beside s.log e
      change s.log.advances ≤ (App.sdEvent s.log e).advances
      rw [hbeside]
    | tick | change | factory | save | info | chunk | exec => exact le_rfl

/-- **Each step** leaves what is behind the configuration page. -/
theorem Step.frame (h : Step m s s') (hs : Between s) (hflow : App.Flow s)
    (hbelow : Below s'.log) (hadv : s'.log.advances < 2 ^ 26 - 1) {b : ℕ}
    (hb : configStart + pageWords ≤ b) : s'.log.flash b = s.log.flash b := by
  have hle := h.advances_le hs.resting
  have hpre := (h.grows hs.resting).2
  cases h with
  | event e => exact hs.frame hflow e hadv hb
  | reset hboot =>
    have hadv' := hle.trans_lt hadv
    obtain ⟨sel, hreads⟩ := reads_of_off ((hs.sound hadv').off hadv')
    refine words_of_bytes (reset_store hreads (hbelow.of_prefix hpre) hboot) b ?_
    simp only [storeStart, configStart, pageWords] at *
    omega

end Runs

/-! ## An update in the store -/

/-- Record `i` of the log is in flash, and is this one to the boot loader. -/
def Holds (l : Log) (i : ℕ) (r : StoreRecord) : Prop :=
  ∃ a, l.records[i]? = some a ∧ a.status = .completed ∧ a.erased = false ∧ decode a.words = some r

/-- Record `i` of the log may be in flash, and is this one to the boot
loader. -/
def MayHold (l : Log) (i : ℕ) (r : StoreRecord) : Prop :=
  ∃ a, l.records[i]? = some a ∧ a.status ≠ .failed ∧ decode a.words = some r

/-- Record `k` is the header of the newest update. -/
structure Newest (l : Log) (k : ℕ) (h : SuInfo) : Prop where
  holds : Holds l k (.info h)
  sane : ¬ Insane h
  pos : 0#32 < h.sequence
  before : ∀ i < k, ∀ j, MayHold l i (.info j) → ¬ Insane j → j.sequence < h.sequence
  after : ∀ i j, k < i → MayHold l i (.info j) → ¬ Insane j → j.sequence ≤ h.sequence

/-- **The update is in the store**: the header, and behind it all chunks of the
image and a request to execute. -/
structure Stored (l : Log) (h : SuInfo) (image : ℕ → Byte) : Prop where
  parts : ∃ k, Newest l k h ∧
    (∀ a, a % oqSuChunk = 0 → h.start.toNat ≤ a → a < h.stop.toNat →
      ∃ i d, k < i ∧ Holds l i (.chunk d) ∧ d.sequence = h.sequence ∧ d.address.toNat = a) ∧
    ∃ i x, k < i ∧ Holds l i (.exec x) ∧ x.sequence = h.sequence
  /-- every chunk of this sequence is one of the image -/
  data : ∀ i d, MayHold l i (.chunk d) → ¬ Foreign h d →
    ∀ b < oqSuChunk, d.data.getD b 0#8 = image (d.address.toNat + b)
  /-- and every request to execute has its version -/
  version : ∀ i x, MayHold l i (.exec x) → x.sequence = h.sequence → x.version = h.version

section Stored

variable {l : Log} {sel : List ℕ} {k : ℕ} {h : SuInfo} {image : ℕ → Byte}

theorem readAt_eq_some {rs : List Appended} {i : ℕ} {r : StoreRecord} :
    readAt rs i = some r ↔ ∃ a, rs[i]? = some a ∧ decode a.words = some r :=
  Option.bind_eq_some_iff

theorem Reads.mayHold (hr : Reads l sel) {i : ℕ} (hi : i ∈ sel) {r : StoreRecord}
    (h : readAt l.records i = some r) : MayHold l i r := by
  obtain ⟨a, ha, hdec⟩ := readAt_eq_some.1 h
  obtain ⟨a', ha', hstatus⟩ := hr.whole i hi
  obtain rfl := Option.some.inj (ha.symm.trans ha')
  exact ⟨a, ha, hstatus, hdec⟩

theorem Reads.mem_of_holds (hr : Reads l sel) {i : ℕ} {r : StoreRecord} (h : Holds l i r) :
    i ∈ sel ∧ readAt l.records i = some r := by
  obtain ⟨a, ha, hstatus, herased, hdec⟩ := h
  exact ⟨hr.kept i a ha hstatus herased, readAt_eq_some.2 ⟨a, ha, hdec⟩⟩

/-- **What the boot loader selects** is the newest update: it finds what was
stored before the header before it, and the rest after. -/
theorem Reads.selects (hr : Reads l sel) (hn : Newest l k h) : ∃ s₁ s₂,
    sel = s₁ ++ k :: s₂ ∧ (∀ i ∈ s₁, i < k) ∧ (∀ i ∈ s₂, k < i) ∧
    storeRecords uicr₂ (bytesOf l.flash) =
      s₁.filterMap (readAt l.records) ++ .info h :: s₂.filterMap (readAt l.records) ∧
    Selects (s₁.filterMap (readAt l.records)) h (s₂.filterMap (readAt l.records)) := by
  obtain ⟨hk, hread⟩ := hr.mem_of_holds hn.holds
  obtain ⟨s₁, s₂, rfl⟩ := List.append_of_mem hk
  obtain ⟨-, htail, hhead⟩ := List.pairwise_append.1 hr.sorted
  have hlt : ∀ i ∈ s₁, i < k := fun i hi => hhead i hi k (List.mem_cons_self ..)
  have hgt : ∀ i ∈ s₂, k < i := (List.pairwise_cons.1 htail).1
  refine ⟨s₁, s₂, rfl, hlt, hgt, ?_, hn.sane, hn.pos, fun j hj hsane => ?_, fun j hj hsane => ?_⟩
  · rw [hr.records, List.filterMap_append, List.filterMap_cons, hread]
  · obtain ⟨i, hi, hj⟩ := List.mem_filterMap.1 hj
    exact hn.before i (hlt i hi) j (hr.mayHold (List.mem_append_left _ hi) hj) hsane
  · obtain ⟨i, hi, hj⟩ := List.mem_filterMap.1 hj
    exact hn.after i j (hgt i hi)
      (hr.mayHold (List.mem_append_right _ (List.mem_cons_of_mem _ hi)) hj) hsane

/-- **The boot loader applies the update.** -/
theorem Stored.applies (hs : Stored l h image) (hr : Reads l sel) : ∃ pre post,
    storeRecords uicr₂ (bytesOf l.flash) = pre ++ .info h :: post ∧ Applies pre h post := by
  obtain ⟨k, hn, hchunks, i, x, hki, hx, hxseq⟩ := hs.parts
  obtain ⟨s₁, s₂, rfl, hlt, hgt, hrs, hsel⟩ := hr.selects hn
  -- what was stored behind the header is read behind it
  have hpost : ∀ {i r}, k < i → Holds l i r → r ∈ s₂.filterMap (readAt l.records) := by
    intro i r hki hi
    obtain ⟨hmem, hread⟩ := hr.mem_of_holds hi
    refine List.mem_filterMap.2 ⟨i, ?_, hread⟩
    rcases List.mem_append.1 hmem with hmem | hmem
    · exact absurd (hlt i hmem) (by omega)
    · exact (List.mem_cons.1 hmem).resolve_left (by omega)
  have hwf := Loader.storeRecords_wellFormed uicr₂ (bytesOf l.flash)
  rw [hrs] at hwf
  refine ⟨_, _, hrs, hsel, ?_, ?_⟩
  · have hpresent : Loader.ChunksPresent (s₂.filterMap (readAt l.records)) h := by
      intro a hmod h₁ h₂
      obtain ⟨j, d, hkj, hd, hseq, haddr⟩ := hchunks a hmod h₁ h₂
      exact ⟨d, hpost hkj hd, hseq, haddr⟩
    exact hpresent.complete fun r hr => hwf r (List.mem_append_right _ hr)
  · rw [Loader.versionInForce_split hsel]
    rcases Loader.versionInForce_after (v := Loader.versionInForce 0#32 0#32
        (s₁.filterMap (readAt l.records))) _ hsel.after with ⟨y, hy, hyseq, hyver⟩ | ⟨hno, -⟩
    · obtain ⟨j, hj, hy⟩ := List.mem_filterMap.1 hy
      rw [hyver]
      exact hs.version j y
        (hr.mayHold (List.mem_append_right _ (List.mem_cons_of_mem _ hj)) hy) hyseq
    · exact absurd hxseq (hno x (hpost hki hx))

end Stored

/-! ## What a reset does -/

section Reset

variable {m : Comparator} {s : Store} {flash : ℕ → Word} {flash' : ℕ → Byte} {h : SuInfo}
  {image : ℕ → Byte} {l : Log} {sel : List ℕ}

/-- The version in force is that of an execute record, or there is none. -/
theorem versionInForce_mem (rs : List StoreRecord) : ∀ q v : Word,
    Loader.versionInForce q v rs = v ∨
      ∃ x, .exec x ∈ rs ∧ Loader.versionInForce q v rs = x.version := by
  induction rs with
  | nil => exact fun _ _ => Or.inl rfl
  | cons r rs ih =>
    intro q v
    have hmem : ∀ {q v w : Word}, (w = v ∨ ∃ x, .exec x ∈ rs ∧ w = x.version) →
        w = v ∨ ∃ x, .exec x ∈ r :: rs ∧ w = x.version :=
      fun h => h.imp id fun ⟨x, hx, h⟩ => ⟨x, List.mem_cons_of_mem _ hx, h⟩
    cases r with
    | info i => exact hmem (q := q) (ih _ _)
    | chunk d => exact hmem (q := q) (ih _ _)
    | exec x =>
      rw [Loader.versionInForce]
      split
      · rcases ih q x.version with h | ⟨y, hy, h⟩
        · exact Or.inr ⟨x, List.mem_cons_self .., h⟩
        · exact Or.inr ⟨y, List.mem_cons_of_mem _ hy, h⟩
      · exact hmem (q := q) (ih _ _)

/-- Without a request to execute its version the boot loader does not apply an
update. -/
theorem Newest.not_past {k : ℕ} (hr : Reads l sel) (hn : Newest l k h) (hversion : h.version ≠ 0#32)
    (hno : ∀ i x, MayHold l i (.exec x) → x.version ≠ h.version) :
    ¬ PastSearch m uicr₂ (bytesOf l.flash) := by
  intro hpast
  obtain ⟨s₁, s₂, -, -, -, hrs, hsel⟩ := hr.selects hn
  obtain ⟨-, -, hforce⟩ := (Loader.pastSearch_of_selects hrs hsel).1 hpast
  rcases versionInForce_mem (storeRecords uicr₂ (bytesOf l.flash)) 0#32 0#32 with
    h₀ | ⟨x, hx, h₁⟩
  · exact hversion (hforce.symm.trans h₀)
  · rw [hr.records] at hx
    obtain ⟨i, hi, hread⟩ := List.mem_filterMap.1 hx
    exact hno i x (hr.mayHold hi hread) (h₁.symm.trans hforce)

end Reset

end System

end AntTracer
