import AntTracer.App.Flow
import AntTracer.App.Wear

/-!
# Where the flash is written and erased

On flash that was erased once, writes go to erased words of the store or of
the configuration page, and the pages erased are the configuration page when
it is full and pages of the store other than the newest one (`disciplined`).
An operation that failed has left the flash as it was. What is behind the
configuration page no event changes (`Between.frame`).
-/

namespace AntTracer

namespace App

/-- The page carries the highest sequence record of the store. -/
def Newest (flash : ℕ → Word) (k : ℕ) : Prop :=
  ∃ q, storeRegion.markOf flash k = some q ∧
    ∀ k' < storePages, ∀ q', storeRegion.markOf flash k' = some q' → q' ≤ q

/-- The words lie in the store or in the configuration page. -/
def Inside (dst cnt : ℕ) : Prop :=
  (storeStart ≤ dst ∧ dst + cnt ≤ storeEnd) ∨
    (configStart ≤ dst ∧ dst + cnt ≤ configStart + pageWords)

/-- **The discipline** of the operation that is outstanding, or was just
started. -/
structure Disciplined (l : Log) : Prop where
  /-- the words to be programmed are erased -/
  blank : ∀ dst src cnt programmed, l.sd = some (.write dst src cnt programmed) →
    ∀ i, programmed.length ≤ i → i < cnt → l.flash (dst + i) = erasedWord
  inside : ∀ dst src cnt programmed, l.sd = some (.write dst src cnt programmed) → Inside dst cnt
  /-- a page to be erased is the full configuration page, or not the newest of the store -/
  page : ∀ page, l.sd = some (.erase page false) →
    (page = 126 ∧ freeSlot l.flash = none) ∨ ∃ k < storePages, page = 64 + k ∧ ¬ Newest l.flash k
  /-- what `StoreFlashed` does again in the end is the operation that failed -/
  rewritten : ∀ dst src cnt programmed, l.sd = some (.write dst src cnt programmed) →
    l.flashEraseOp = false ∧ l.flashWriteOp = true ∧ l.flashAddress = dst ∧ l.flashSource = src ∧
      l.flashCount = cnt
  erased : ∀ page done, l.sd = some (.erase page done) →
    l.flashEraseOp = true ∧ l.flashWriteOp = false ∧ l.flashAddress / pageWords = page

/-! ## Words that are still erased -/

/-- The part of the discipline that looks at what has been done so far. -/
structure Careful (l : Log) : Prop where
  blank : ∀ dst src cnt programmed, l.sd = some (.write dst src cnt programmed) →
    ∀ i, programmed.length ≤ i → i < cnt → l.flash (dst + i) = erasedWord
  full : l.sd = some (.erase 126 false) → freeSlot l.flash = none

section Log

variable {l : Log}

theorem careful_of_none (h : l.sd = none) : Careful l := by
  refine ⟨fun dst src cnt programmed hsd => ?_, fun hsd => ?_⟩ <;>
    · rw [h] at hsd
      cases hsd

theorem Careful.congr {l' : Log} (h : Careful l) (hsd : l'.sd = l.sd)
    (hflash : l'.flash = l.flash) :
    Careful l' := by
  refine ⟨?_, ?_⟩ <;> rw [hsd, hflash]
  · exact h.blank
  · exact h.full

/-- What an event leaves outstanding, failures leaving the flash as it was. -/
inductive Left (l l' : Log) : Prop
  | answered (sd : l'.sd = none)
  | same (sd : l'.sd = l.sd) (flash : l'.flash = l.flash)
  | erased {page : ℕ} (sd : l'.sd = some (.erase page true))
  | word {dst : ℕ} {src : Source} {cnt : ℕ} {programmed : List Word} {w : Word}
    (before : l.sd = some (.write dst src cnt programmed))
    (sd : l'.sd = some (.write dst src cnt (programmed ++ [w])))
    (flash : l'.flash = Function.update l.flash (dst + programmed.length)
      (l.flash (dst + programmed.length) &&& w))

theorem Waiting.left (h : Waiting l) {e : SdEvent} (hfail : e = .error → Untouched l.sd) :
    Left l (sdEvent l e) := by
  cases h with
  | answered sd =>
    rw [sdEvent_of_none sd]
    exact .same rfl rfl
  | @erasing page done op =>
    cases e with
    | work =>
      cases done with
      | false => exact @Left.erased _ _ page (by rw [op.sdEvent_work])
      | true => exact .same (by rw [op.sdEvent_work_done]) (by rw [op.sdEvent_work_done])
    | success =>
      cases done with
      | false => exact .same (by rw [op.sdEvent_success]) (by rw [op.sdEvent_success])
      | true => exact .answered (by rw [op.sdEvent_success_done])
    | error =>
      have hdone := hfail rfl
      rw [op.sd] at hdone
      obtain rfl : done = false := hdone
      by_cases htries : 0 < l.flashTries
      · rw [op.sdEvent_error htries]
        exact .same op.sd.symm rfl
      · exact .answered (by rw [op.sdEvent_error_last htries])
  | @writing dst src W j op =>
    cases e with
    | work =>
      by_cases hlt : j < W.length
      · rw [op.sdEvent_work hlt]
        refine .word op.sd (w := W[j]) ?_ ?_
        · rw [← List.take_succ_eq_append_getElem hlt]
        · rw [op.length_take]
      · exact .same (by rw [op.sdEvent_work_done hlt]) (by rw [op.sdEvent_work_done hlt])
    | success =>
      by_cases heq : j = W.length
      · exact .answered (by rw [op.sdEvent_success_done heq])
      · exact .same (by rw [op.sdEvent_success heq]) (by rw [op.sdEvent_success heq])
    | error =>
      -- a write that fails has not programmed a word, so it is as before
      have hnone := hfail rfl
      rw [op.sd] at hnone
      have hnone : W.take j = [] := hnone
      by_cases htries : 0 < l.flashTries
      · rw [op.sdEvent_error htries]
        exact .same (by rw [op.sd, hnone]) rfl
      · refine .answered ?_
        rw [op.sdEvent_error_last htries]
        exact sd_flashWriteRaw _ _ _

/-- **An event of the soft device.** -/
theorem Careful.step (h : Careful l) (hwait : Waiting l) {e : SdEvent}
    (hfail : e = .error → Untouched l.sd) : Careful (sdEvent l e) := by
  cases hwait.left hfail with
  | answered sd => exact careful_of_none sd
  | same sd flash => exact h.congr sd flash
  | erased sd =>
    refine ⟨fun dst src cnt programmed hsd => ?_, fun hsd => ?_⟩ <;>
      · rw [sd] at hsd
        cases hsd
  | @word dst src cnt programmed w before sd flash =>
    refine ⟨fun dst' src' cnt' programmed' hsd i hi hcnt => ?_, fun hsd => ?_⟩
    · rw [sd] at hsd
      cases hsd
      rw [List.length_append, List.length_singleton] at hi
      rw [flash, Function.update_of_ne (by omega)]
      exact h.blank dst src cnt programmed before i (by omega) hcnt
    · rw [sd] at hsd
      cases hsd

/-! ## The first word of a write -/

/-- A write was started on an erased word. -/
def Guarded (l : Log) : Prop :=
  ∀ dst src cnt programmed, l.sd = some (.write dst src cnt programmed) →
    programmed = [] ∧ l.flash dst = erasedWord

theorem guarded_of_none (h : l.sd = none) : Guarded l := by
  intro dst src cnt programmed hsd
  rw [h] at hsd
  cases hsd

theorem guarded_flashErase (h : l.sd = none) (addr : ℕ) : Guarded (flashErase addr l) :=
  fun dst src cnt programmed hsd => by
    rw [(erasingOp_flashErase h addr).sd] at hsd
    cases hsd

theorem guarded_wrWrite (h : l.sd = none) (ptr cnt : ℕ) : Guarded (wrWrite ptr cnt l).1 := by
  unfold wrWrite
  by_cases hfirst : l.flash ptr ≠ erasedWord
  · rw [if_pos hfirst]
    exact guarded_of_none h
  · rw [if_neg hfirst]
    intro dst src n programmed hsd
    have hsd' := hsd
    dsimp only at hsd'
    rw [sd_flashWrite (by split <;> exact h)] at hsd'
    cases hsd'
    refine ⟨rfl, ?_⟩
    change Log.flash (if l.needSeq = true then wrSequence l else l) ptr = erasedWord
    split <;> exact not_not.1 hfirst

theorem guarded_wrErase (h : l.sd = none) (ptr pe remain cnt : ℕ) :
    Guarded (wrErase ptr pe remain cnt l).1 := by
  unfold wrErase
  split
  · dsimp only
    generalize (if pe ≥ storeEnd then storeStart else pe) = next
    split
    · exact guarded_flashErase h _
    split
    · exact guarded_wrWrite (by exact h) _ _
    · exact guarded_wrWrite (by exact h) _ _
  · exact guarded_wrWrite (by exact h) _ _

theorem guarded_wrGo (h : l.sd = none) : Guarded (wrGo l).1 := by
  unfold wrGo
  dsimp only
  split
  · split
    · exact guarded_of_none h
    · exact guarded_wrErase (by exact h) _ _ _ _
  · exact guarded_wrErase (by exact h) _ _ _ _
  · exact guarded_wrErase (by exact h) _ _ _ _
  · exact guarded_wrWrite (by exact h) _ _
  · exact guarded_wrWrite (by exact h) _ _
  · exact guarded_of_none h
  · exact guarded_of_none h

/-- **A record whose first word is not written yet is not written at all.** -/
theorem Working.careful (h : Working l) (hguard : Guarded l) : Careful l := by
  cases h with
  | @erasing t spare rs r b more state needSeq tail op =>
    rcases op with ⟨done, op, -⟩ | ⟨-, hsd, -⟩
    · refine ⟨fun dst src cnt programmed hsd => ?_, fun hsd => ?_⟩
      · rw [op.sd] at hsd
        cases hsd
      · have hmod := mod_lt t.hi
        rw [op.sd] at hsd
        simp only [Option.some.injEq, SdOp.erase.injEq, storePages] at hsd hmod
        omega
    · exact careful_of_none hsd
  | @writing t spare flash rs r W n k w op =>
    rcases op with ⟨j, hj, op⟩ | ⟨-, hsd, -⟩
    · obtain ⟨hnil, hfirst⟩ := hguard _ _ _ _ op.sd
      obtain rfl : k = 0 := by
        by_contra hk
        have hle := w.le
        have hlen : 0 < (W.take k).length := by
          rw [List.length_take]
          omega
        have hword : burn flash l.currentWrite (W.take k) (l.currentWrite + 0) =
            burn flash l.currentWrite W (l.currentWrite + 0) := by
          rw [burn_at hlen, burn_at (by omega), List.getElem_take]
        rw [Nat.add_zero] at hword
        rw [w.flash_eq, hword] at hfirst
        exact w.placed.first_ne w.record hfirst
      refine ⟨fun dst src cnt programmed hsd i _ hi => ?_, fun hsd => ?_⟩
      · rw [op.sd] at hsd
        cases hsd
        rw [w.flash_eq, List.take_zero, burn_nil]
        exact w.placed.blank w.disk w.record hi
      · rw [op.sd] at hsd
        cases hsd
    · exact careful_of_none hsd

/-- A write to a slot that is erased. -/
theorem careful_flashWrite (h : l.sd = none) {dst cnt : ℕ} {src : Source}
    (hblank : ∀ i < cnt, l.flash (dst + i) = erasedWord) : Careful (flashWrite dst src cnt l) := by
  refine ⟨fun dst' src' cnt' programmed hsd i _ hi => ?_, fun hsd => ?_⟩
  · rw [sd_flashWrite h] at hsd
    cases hsd
    exact hblank i hi
  · rw [sd_flashWrite h] at hsd
    cases hsd

end Log

/-! ## The discipline in each stage -/

section Store

variable {s s' : Store}

/-- A call of `wrGo`. -/
theorem careful_handed {r : Log × Bool} (hwent : Went r) (hguard : Guarded r.1) :
    Careful (handed r s).log := by
  rcases hwent with ⟨-, hwork⟩ | ⟨-, hsd, -⟩
  · exact hwork.careful hguard
  · exact careful_of_none hsd

/-- **A round starts its operation on erased flash.** -/
theorem Sound.careful (h : Sound s) (hflow : Flow s) (hround : Round s s')
    (hadv : s.log.advances < 2 ^ 26 - 1) : Careful s'.log := by
  have hsd := hflow.round_free hround
  cases hround with
  | init0 hs => exact careful_of_none ((init0_device s).1.trans hsd)
  | @slot i hs hflag hi =>
    obtain ⟨hlt, hblank⟩ := freeSlot_eq_some hi
    exact careful_flashWrite (by exact hsd) (h.slots.blank hlt hblank)
  | full hs hflag hfull =>
    obtain ⟨-, t, spare, hidle⟩ : Free (copyConfig (takeConfig s)).log :=
      (h.stage.free hs).copyConfig
    have hrec := (Rec.config (copyConfig (takeConfig s)).log.staging.config).isRecord
      (copyConfig (takeConfig s)).log.buf
    exact careful_handed (hidle.append hsd hrec) (guarded_wrGo (by exact hsd))
  | part p st hs hflag =>
    obtain ⟨-, t, spare, hidle⟩ := h.stage.free hs
    exact careful_handed (hidle.append hsd (p.isRecord _ _)) (guarded_wrGo (by exact hsd))
  | go hs hfc =>
    exact careful_handed ((h.stage.writing hs).1.go hfc hadv) (guarded_wrGo hsd)
  | erase hs =>
    obtain ⟨-, hfull, -⟩ := h.stage.copied hs
    refine ⟨fun dst src cnt programmed hsd' => ?_, fun _ => hfull⟩
    rw [(erasingOp_flashErase hsd configStart).sd] at hsd'
    cases hsd'
  | rewrite hs hfc =>
    obtain ⟨⟨-, -, ⟨done, op, -⟩ | ⟨hblank, -, -⟩⟩, -⟩ := h.stage.erasing hs
    · rw [op.sd] at hsd
      cases hsd
    · exact careful_flashWrite hsd (hblank.slots.blank (by decide) (hblank _ le_rfl (by decide)))
  | saved hs hfc => exact careful_of_none hsd

/-- The page that comes next is not the newest one. -/
theorem Disk.not_newest {t : LogTape} {spare : List Word} {flash : ℕ → Word}
    (h : Disk t spare flash) :
    ¬ Newest flash (t.hi % storePages) := by
  rintro ⟨q, hq, hmax⟩
  rcases Nat.lt_or_ge t.lo t.hi with hlt | hge
  · have hring := h.ring hlt
    have hmark := hring.mark (t.hi - 1) (by omega) le_rfl
    have hle := hmax _ (mod_lt (t.hi - 1)) _ hmark
    by_cases hfull : t.hi = t.lo + storePages
    · -- it is the oldest one
      have hold := hring.mark t.lo le_rfl (by omega)
      rw [show t.lo % storePages = t.hi % storePages by rw [hfull, Nat.add_mod_right], hq] at hold
      simp only [Option.some.injEq, storePages] at *
      omega
    · have hroom := h.room
      rw [hring.blank _ (mod_lt t.hi) fun u h₁ h₂ => mod_ne (by omega) (by omega)] at hq
      cases hq
  · -- there is none
    have hle := h.laid.le
    have hhi := h.new (by omega)
    have hnext := h.next (by simp only [storePages] at *; omega)
    rw [hnext.markOf_eq, h.spare_mark] at hq
    cases hq

/-- Where an operation goes. -/
structure Aimed (l : Log) : Prop where
  inside : ∀ dst src cnt programmed, l.sd = some (.write dst src cnt programmed) → Inside dst cnt
  page : ∀ page done, l.sd = some (.erase page done) →
    page = 126 ∨ ∃ k < storePages, page = 64 + k ∧ ¬ Newest l.flash k

theorem aimed_of_none {l : Log} (h : l.sd = none) : Aimed l := by
  constructor <;>
    · intros
      simp_all

theorem Working.aimed {l : Log} (h : Working l) : Aimed l := by
  cases h with
  | @erasing t spare rs r b more state needSeq tail op =>
    rcases op with ⟨done, op, -⟩ | ⟨-, hsd, -⟩
    · refine ⟨fun dst src cnt programmed hsd => ?_, fun page done' hsd => ?_⟩
      · rw [op.sd] at hsd
        cases hsd
      · rw [op.sd] at hsd
        cases hsd
        exact Or.inr ⟨_, mod_lt t.hi, rfl, b.disk.not_newest⟩
    · exact aimed_of_none hsd
  | writing w op =>
    rcases op with ⟨j, hj, op⟩ | ⟨-, hsd, -⟩
    · refine ⟨fun dst src cnt programmed hsd => ?_, fun page done' hsd => ?_⟩
      · rw [op.sd] at hsd
        cases hsd
        exact Or.inl (w.placed.within_words w.disk w.record)
      · rw [op.sd] at hsd
        cases hsd
    · exact aimed_of_none hsd

theorem ErasingPage.aimed {l : Log} (h : ErasingPage l) : Aimed l := by
  obtain ⟨-, -, ⟨done, op, -⟩ | ⟨-, hsd, -⟩⟩ := h
  · refine ⟨fun dst src cnt programmed hsd => ?_, fun page done' hsd => ?_⟩
    · rw [op.sd] at hsd
      cases hsd
    · rw [op.sd] at hsd
      cases hsd
      exact Or.inl rfl
  · exact aimed_of_none hsd

theorem WritingSlot.aimed {l : Log} {flash : ℕ → Word} {i k : ℕ} (h : WritingSlot l flash i k) :
    Aimed l := by
  have hi := h.lt
  obtain ⟨j, -, op⟩ | ⟨-, hsd, -⟩ := h.op
  · refine ⟨fun dst src cnt programmed hsd => ?_, fun page done' hsd => ?_⟩
    · rw [op.sd, Config.length_words] at hsd
      cases hsd
      refine Or.inr ?_
      simp only [slotAddr, configSlots, configWords, configStart, pageWords] at *
      omega
    · rw [op.sd] at hsd
      cases hsd
  · exact aimed_of_none hsd

theorem Sound.aimed (h : Sound s) (hflow : Flow s) : Aimed s.log := by
  rcases h.stage.states with hs | hs | hs | hs | hs | hs
  · exact aimed_of_none (hflow.free (Or.inl hs))
  · exact aimed_of_none (hflow.free (Or.inr (Or.inl hs)))
  · exact (h.stage.writing hs).1.aimed
  · exact aimed_of_none (hflow.free (Or.inr (Or.inr hs)))
  · exact (h.stage.erasing hs).1.aimed
  · obtain ⟨⟨flash, i, k, hslot⟩, -⟩ := h.stage.slot hs
    exact hslot.aimed

/-- **What `StoreFlashed` does again.** -/
theorem Waiting.again {l : Log} (h : Waiting l) :
    (∀ dst src cnt programmed, l.sd = some (.write dst src cnt programmed) →
      l.flashEraseOp = false ∧ l.flashWriteOp = true ∧ l.flashAddress = dst ∧ l.flashSource = src ∧
        l.flashCount = cnt) ∧
    ∀ page done, l.sd = some (.erase page done) →
      l.flashEraseOp = true ∧ l.flashWriteOp = false ∧ l.flashAddress / pageWords = page := by
  cases h with
  | erasing op =>
    refine ⟨fun dst src cnt programmed hsd => ?_, fun page done hsd => ?_⟩ <;>
      · rw [op.sd] at hsd
        cases hsd
        try exact ⟨op.eraseOp, op.writeOp, op.address⟩
  | writing op =>
    refine ⟨fun dst src cnt programmed hsd => ?_, fun page done hsd => ?_⟩ <;>
      · rw [op.sd] at hsd
        cases hsd
        try exact ⟨op.eraseOp, op.writeOp, op.address, op.source, op.count⟩
  | answered sd =>
    refine ⟨fun dst src cnt programmed hsd => ?_, fun page done hsd => ?_⟩ <;>
      · rw [sd] at hsd
        cases hsd

/-! ## Behind the configuration page -/

theorem program_flash_frame {src : Source} {dst b : ℕ} {l : Log} (is : List ℕ)
    (hb : ∀ i ∈ is, b ≠ dst + i) : ∀ t : Log,
    (is.foldl (fun t i => programWord (dst + i) (l.ram src i) t) t).flash b = t.flash b := by
  induction is with
  | nil => exact fun _ => rfl
  | cons i is ih =>
    intro t
    rw [List.foldl_cons, ih fun i' hi' => hb i' (List.mem_cons_of_mem _ hi')]
    exact Function.update_of_ne (hb i (List.mem_cons_self ..)) _ _

/-- An event of the soft device changes no word behind the configuration
page. -/
theorem Waiting.frame {l : Log} (h : Waiting l) (haim : Aimed l) (e : SdEvent) {b : ℕ}
    (hb : configStart + pageWords ≤ b) : (sdEvent l e).flash b = l.flash b := by
  cases h with
  | answered sd => rw [sdEvent_of_none sd]
  | @erasing page done op =>
    have hpage : b / pageWords ≠ page := by
      rcases haim.page page done op.sd with rfl | ⟨k, hk, rfl, -⟩ <;>
        simp only [storePages, configStart, pageWords] at * <;> omega
    obtain ⟨now, sd', fc, tries, heq, -⟩ := op.step e
    rw [heq]
    cases now with
    | false => rfl
    | true => exact if_neg hpage
  | @writing dst src W j op =>
    have hend : ∀ i < W.length, b ≠ dst + i := by
      intro i hi
      rcases haim.inside _ _ _ _ op.sd with hin | hin <;>
        simp only [storeEnd, configStart, pageWords] at * <;> omega
    cases e with
    | work =>
      by_cases hlt : j < W.length
      · rw [op.sdEvent_work hlt]
        exact Function.update_of_ne (hend j hlt) _ _
      · rw [op.sdEvent_work_done hlt]
    | success =>
      by_cases heq : j = W.length
      · rw [op.sdEvent_success_done heq]
      · rw [op.sdEvent_success heq]
    | error =>
      by_cases htries : 0 < l.flashTries
      · rw [op.sdEvent_error htries]
      · rw [op.sdEvent_error_last htries]
        exact program_flash_frame _ (fun i hi => hend i (List.mem_range.1 hi)) _

/-- A round leaves the flash to the soft device. -/
theorem Round.flash_eq (h : Round s s') : s'.log.flash = s.log.flash := by
  cases h with
  | init0 => exact (init0_device s).2.2
  | slot => rfl
  | full => exact (appendRecord_kept _ _ (copyConfig (takeConfig s)).log).1
  | part => exact (appendRecord_kept _ _ s.log).1
  | go => exact (wrGo_kept s.log).flash
  | erase => rfl
  | rewrite => rfl
  | saved => rfl

/-- **Every event** leaves what is behind the configuration page. -/
theorem Between.frame (h : Between s) (hflow : Flow s) (e : StoreEvent)
    (hadv : (storeStep s e).log.advances < 2 ^ 26 - 1) {b : ℕ}
    (hb : configStart + pageWords ≤ b) : (storeStep s e).log.flash b = s.log.flash b := by
  cases e with
  | loop =>
    have hrounds := storeLoop_rounds 7 s h.resting
    change (storeLoop 7 s).1.log.flash b = s.log.flash b
    generalize (storeLoop 7 s).1 = s' at hrounds
    induction hrounds with
    | refl => rfl
    | tail _ hround ih => exact (congrFun hround.flash_eq b).trans ih
  | device e =>
    by_cases hsd : s.log.sd = none
    · rw [storeStep, sdEvent_of_none hsd]
    · obtain ⟨flash', sd', fc, tries, rs', written', refused', hbeside⟩ := sdEvent_beside s.log e
      have hsame : (sdEvent s.log e).advances = s.log.advances := by rw [hbeside]
      have hsound := h.sound (hsame ▸ hadv)
      exact (hflow.outstanding hsd).frame (hsound.aimed hflow) e hb
  | tick | change | factory | save | info | chunk | exec => rfl

/-- **The operation that is outstanding.** -/
theorem Sound.keeps_discipline (h : Sound s) (hflow : Flow s) (hcareful : Careful s.log) :
    Disciplined s.log where
  blank := hcareful.blank
  inside := (h.aimed hflow).inside
  page page hsd := by
    refine ((h.aimed hflow).page page false hsd).imp (fun hpage => ⟨hpage, ?_⟩) id
    subst hpage
    exact hcareful.full hsd
  rewritten dst src cnt programmed hsd :=
    (hflow.outstanding (by rw [hsd]; nofun)).again.1 dst src cnt programmed hsd
  erased page done hsd := (hflow.outstanding (by rw [hsd]; nofun)).again.2 page done hsd

/-! ## Runs -/

/-- A failed operation leaves the flash as it was. -/
def Failing (s : Store) (e : SystemEvent) : Prop :=
  e = .event (.device .error) → Untouched s.log.sd

instance (s : Store) : ∀ e : SystemEvent, Decidable (Failing s e)
  | .event (.device .error) => decidable_of_iff (Untouched s.log.sd) ⟨fun h _ => h, fun h => h rfl⟩
  | .event (.device .work) | .event (.device .success) => .isTrue nofun
  | .event .loop | .event (.tick _) | .event (.change _) | .event .factory | .event (.save _)
  | .event (.info _) | .event (.chunk _) | .event (.exec _) | .reboot => .isTrue nofun

/-- **What holds between the events.** -/
structure Tidy (s : Store) : Prop where
  between : Between s
  flow : Flow s
  careful : s.log.advances < 2 ^ 26 - 1 → Careful s.log

theorem Tidy.round (h : Tidy s) (hround : Round s s') : Tidy s' := by
  refine ⟨h.between.round hround, (h.flow.round hround).2, fun hadv => ?_⟩
  have hlt := hround.advances_le.trans_lt hadv
  exact (h.between.sound hlt).careful h.flow hround hlt

theorem Tidy.loop (h : Tidy s) : Tidy (storeSuperLoop s).1 :=
  storeSuperLoop_inv (fun _ h => h.between.resting) (fun _ _ h hround => h.round hround) h

theorem Tidy.step (h : Tidy s) {e : SystemEvent} (hfail : Failing s e) : Tidy (systemStep s e) := by
  refine ⟨h.between.systemStep e, h.flow.step e, ?_⟩
  cases e with
  | reboot => exact fun _ => careful_of_none rfl
  | event e =>
    cases e with
    | loop => exact h.loop.careful
    | device e =>
      intro hadv
      obtain ⟨flash', sd', fc, tries, rs', written', refused', hbeside⟩ := sdEvent_beside s.log e
      have hsame : (sdEvent s.log e).advances = s.log.advances := by rw [hbeside]
      have hcareful := h.careful (hsame ▸ hadv)
      by_cases hsd : s.log.sd = none
      · exact careful_of_none (by rw [systemStep, storeStep, sdEvent_of_none hsd]; exact hsd)
      · exact hcareful.step (h.flow.outstanding hsd) fun he => hfail (by rw [he])
    | tick | change | factory | save => exact h.careful
    | info | chunk | exec => exact fun hadv => (h.careful hadv).congr rfl rfl

/-- **The flash discipline**, in every state reached. -/
theorem disciplined {flash : ℕ → Word} (h : Erased flash) (es : List SystemEvent)
    (hfail : Runs.Each systemStep Failing (Store.first flash) es)
    (hadv : (Runs.run systemStep (Store.first flash) es).log.advances < 2 ^ 26 - 1) :
    Disciplined (Runs.run systemStep (Store.first flash) es).log := by
  have hfirst : Tidy (Store.first flash) :=
    ⟨(sound_first h).between, flow_startUp _, fun _ => careful_of_none rfl⟩
  have hrun : Tidy (Runs.run systemStep (Store.first flash) es) :=
    Runs.inv_of_each (fun s e (hs : Tidy s) hf => hs.step hf) hfirst hfail
  exact (hrun.between.sound hadv).keeps_discipline hrun.flow (hrun.careful hadv)

set_option maxRecDepth 10000 in
theorem disciplined_execute :
    Disciplined (Runs.run systemStep (Store.first fun _ => erasedWord)
      [.event .loop, .event (.exec ⟨3#32, 2#32⟩), .event .loop, .event (.device .error),
        .event (.device .work)]).log :=
  disciplined (fun _ _ _ => rfl) _ (by decide) (by decide)

end Store

end App

end AntTracer
