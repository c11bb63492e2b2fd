import AntTracer.App.Framing
import AntTracer.App.Sound
import AntTracer.Loader.Outside

/-!
# One flash, two programs

The application addresses the flash by words, the boot loader by bytes, and
both read the store. What the boot loader finds there is what the application
has written: of the records handed to `wrGo` all that were completed and have
not been recycled, in order, and else only ones whose write a power loss has
cut behind their last word (`loader_reads`).
-/

namespace AntTracer

namespace System

open App (Store Appended Log Disk Linked Accepts storeRegion storeStart configStart systemStep)
open Loader (StoreRecord decode storeRecords flashWord uicr₂)

/-! ## Words and bytes -/

/-- The bytes of a flash of words. -/
def bytesOf (flash : ℕ → Word) (a : ℕ) : Byte := (flash (a / 4) >>> (8 * (a % 4))).setWidth 8

/-- The words of a flash of bytes. -/
def wordsOf (flash : ℕ → Byte) (a : ℕ) : Word := flashWord flash (a * 4)

variable {flash : ℕ → Word}

theorem wordsOf_bytesOf (flash : ℕ → Word) (a : ℕ) : wordsOf (bytesOf flash) a = flash a := by
  have hbyte : ∀ b < 4, bytesOf flash (a * 4 + b) = (flash a >>> (8 * b)).setWidth 8 := by
    intro b hb
    rw [bytesOf, show (a * 4 + b) / 4 = a by omega, show (a * 4 + b) % 4 = b by omega]
  rw [wordsOf, flashWord, hbyte 3 (by decide), hbyte 2 (by decide), hbyte 1 (by decide)]
  have := hbyte 0 (by decide)
  rw [Nat.add_zero] at this
  rw [this]
  exact Loader.append_bytes _

/-- A word depends on its bytes alone. -/
theorem wordsOf_congr {f f' : ℕ → Byte} {a : ℕ} (h : ∀ b, a * 4 ≤ b → b < a * 4 + 4 → f' b = f b) :
    wordsOf f' a = wordsOf f a := by
  rw [wordsOf, wordsOf, flashWord, flashWord, h _ (by omega) (by omega), h _ (by omega) (by omega),
    h _ (by omega) (by omega), h _ le_rfl (by omega)]

/-! ## The store -/

/-- `uicr2.S` names the store of the application. -/
theorem region_uicr₂ : uicr₂.region = storeRegion.scale 4 := rfl

/-- **Both programs find the same raw records.** -/
theorem storeRecords_bytesOf (flash : ℕ → Word) :
    storeRecords uicr₂ (bytesOf flash) = (rawRecords storeRegion flash).filterMap decode := by
  rw [storeRecords, region_uicr₂, rawRecords_scale (by decide) (wordsOf_bytesOf flash)]

/-- What the application does not accept the boot loader does not take for a
record either. -/
theorem decode_of_not_accepts {l : List Word} (hne : l ≠ []) (h : ¬ Accepts l) :
    decode l = none := by
  obtain ⟨-, hinfo, hchunk, hexec⟩ := App.decode_of_type l
  have hshort : ∀ {α : Type} {f : Buffer → α × Buffer} {ns : List ℕ} {g : List Word → α},
      ReadsAs f ns g → App.typeOf l ≠ rtSequence → App.typeWidths (App.typeOf l) = ns →
      readAs f l = none := by
    intro α f ns g hf hty hns
    rw [← Option.not_isSome_iff_eq_none, hf.readAs_isSome hne, ← hns]
    exact fun hlen => h ⟨hty, hlen⟩
  by_cases h₁ : App.typeOf l = rtSuHdr
  · rw [hinfo h₁, hshort rdSuInfo_reads (by rw [h₁]; decide) (by rw [h₁]; rfl)]
    rfl
  by_cases h₂ : App.typeOf l = rtSuData
  · rw [hchunk h₂, hshort rdSuData_reads (by rw [h₂]; decide) (by rw [h₂]; rfl)]
    rfl
  by_cases h₃ : App.typeOf l = rtSuExec
  · rw [hexec h₃, hshort rdSuExec_reads (by rw [h₃]; decide) (by rw [h₃]; rfl)]
    rfl
  · simp only [decode, if_neg h₁, if_neg h₂, if_neg h₃]

/-- A record of the log, as the boot loader takes it. -/
def readAt (rs : List Appended) (i : ℕ) : Option StoreRecord :=
  rs[i]?.bind fun r => decode r.words

variable {t : App.LogTape} {spare : List Word} {rs : List Appended}

/-- **The boot loader reads the records on the tape.** -/
theorem storeRecords_tape (hdisk : Disk t spare flash) (hlinked : Linked t rs) :
    storeRecords uicr₂ (bytesOf flash) = (App.tags t).filterMap (readAt rs) := by
  rw [storeRecords_bytesOf, hdisk.rawRecords_eq, App.tags, List.filterMap_filterMap,
    List.filterMap_map]
  refine List.filterMap_congr fun e he => ?_
  obtain ⟨u, h₁, h₂, he⟩ := App.mem_contents.1 he
  obtain ⟨o, ws⟩ := e
  cases o with
  | none =>
    exact decode_of_not_accepts (hdisk.laid.frame u h₁ h₂ _ he).ne_nil
      (hlinked.piece u h₁ h₂ ws he)
  | some i =>
    obtain ⟨r, hr, hw, -⟩ := hlinked.whole u h₁ h₂ i ws he
    rw [Function.comp_apply, Option.bind_some, readAt, hr, Option.bind_some, hw]

/-! ## What the boot loader finds -/

/-- The boot loader reads these records of the log, in this order. -/
structure Reads (l : Log) (sel : List ℕ) : Prop where
  sorted : sel.Pairwise (· < ·)
  records : storeRecords uicr₂ (bytesOf l.flash) = sel.filterMap (readAt l.records)
  /-- what is completed and was not erased since is among them -/
  kept : ∀ i r, l.records[i]? = some r → r.status = .completed → r.erased = false → i ∈ sel
  /-- and nothing that `wrGo` gave up -/
  whole : ∀ i ∈ sel, ∃ r, l.records[i]? = some r ∧ r.status ≠ .failed

theorem getElem?_noteStatus {st : App.Status} {i : ℕ} {r : Appended}
    (h : (App.noteStatus st rs)[i]? = some r) : ∃ r₀, rs[i]? = some r₀ ∧ r.words = r₀.words ∧
      (r₀.status = .writing ∨ r.status = r₀.status) := by
  rw [App.noteStatus, List.getElem?_map, Option.map_eq_some_iff] at h
  obtain ⟨r₀, h₁, rfl⟩ := h
  refine ⟨r₀, h₁, ?_⟩
  by_cases hw : r₀.status = .writing
  · rw [if_pos hw]
    exact ⟨rfl, .inl hw⟩
  · rw [if_neg hw]
    exact ⟨rfl, .inr rfl⟩

theorem readAt_noteStatus (st : App.Status) (rs : List Appended) (i : ℕ) :
    readAt (App.noteStatus st rs) i = readAt rs i := by
  rw [readAt, readAt, App.noteStatus, List.getElem?_map]
  cases rs[i]? with
  | none => rfl
  | some r =>
    simp only [Option.map_some, Option.bind_some]
    split <;> rfl

/-- **Once the power is gone** the boot loader reads what is on the tape. -/
theorem reads_of_off {l : Log} (h : App.Off (App.powerLoss l)) : ∃ sel, Reads l sel := by
  obtain ⟨t, spare, hdisk, hlinked, -⟩ := h.tape
  change Linked t (App.noteStatus .cut l.records) at hlinked
  refine ⟨App.tags t, hlinked.sorted, ?_, fun i r hr hstatus herased => ?_, fun i hi => ?_⟩
  · rw [show l.flash = (App.powerLoss l).flash from rfl, storeRecords_tape hdisk hlinked]
    exact List.filterMap_congr fun i _ => readAt_noteStatus .cut l.records i
  · refine hlinked.kept i r ?_ hstatus herased
    rw [App.noteStatus, List.getElem?_map, hr, Option.map_some, if_neg (by rw [hstatus]; decide)]
  · obtain ⟨⟨o, ws⟩, he, rfl⟩ := List.mem_filterMap.1 hi
    obtain ⟨u, h₁, h₂, he⟩ := App.mem_contents.1 he
    obtain ⟨r, hr, -, -, hstatus, -⟩ := hlinked.whole u h₁ h₂ i ws he
    obtain ⟨r₀, hr₀, -, hsame⟩ := getElem?_noteStatus hr
    refine ⟨r₀, hr₀, fun hfailed => ?_⟩
    rw [hfailed] at hsame
    rcases hsame with hsame | hsame
    · cases hsame
    · rw [hsame] at hstatus
      exact absurd hstatus (by decide)

/-- **What the application writes the boot loader reads.** From an erased
store, after any requests, passes, steps of the soft device and power losses,
and whatever the store is at: the boot loader reads all records that are
completed and have not been recycled, in order, and none that has failed. -/
theorem loader_reads (h : App.Erased flash) (es : List App.SystemEvent)
    (hadv : (Runs.run systemStep (Store.first flash) es).log.advances < 2 ^ 26 - 1) :
    ∃ sel, Reads (Runs.run systemStep (Store.first flash) es).log sel :=
  reads_of_off (((App.sound_run h es).sound hadv).off hadv)

/-- A header is stored, and then the power is lost while another one is being
written. -/
def cutRun : List App.SystemEvent :=
  [.event .loop, .event (.info ⟨1#32, 1#32, 0#32, 64#32⟩), .event .loop] ++
    List.replicate 32 (.event (.device .work)) ++
    [.event (.device .success), .event .loop, .event (.info ⟨2#32, 1#32, 0#32, 64#32⟩),
      .event .loop, .event (.device .work), .reboot]

set_option maxRecDepth 100000 in
theorem loader_reads_cutRun :
    ∃ sel, Reads (Runs.run systemStep (Store.first fun _ => erasedWord) cutRun).log sel :=
  loader_reads (fun _ _ _ => rfl) cutRun (by decide)

end System

end AntTracer
