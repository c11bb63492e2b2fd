import AntTracer.Loader.Converge
import AntTracer.Loader.Outside

/-!
# Power losses in the boot loader

The power may be lost between two flash operations of `Main`, or in one of
them, and the next start begins again. However often it happens, the run that
gets to its end leaves the update in flash, and what is in no page of the
update as it was (`Boots.installs`).
-/

namespace AntTracer

namespace Loader

variable {m : Comparator} {u : UICR} {flash flash' : ℕ → Byte} {h : SuInfo}

/-! ## The flash operations of a run -/

/-- What flash operations do, one after the other. -/
def applyOps (ops : List FlashOp) (flash : ℕ → Byte) : ℕ → Byte :=
  ops.foldl (fun f o => o.apply f) flash

theorem applyOps_of_not_touches {a : ℕ} (ops : List FlashOp) : ∀ flash,
    (∀ o ∈ ops, ¬ o.Touches a) → applyOps ops flash a = flash a := by
  induction ops with
  | nil => exact fun _ _ => rfl
  | cons o ops ih =>
    intro flash hno
    rw [applyOps, List.foldl_cons]
    exact (ih _ fun o' ho' => hno o' (List.mem_cons_of_mem _ ho')).trans
      (FlashOp.apply_of_not_touches (hno o (List.mem_cons_self ..)) flash)

/-- Flash is what the operations so far have made of it. -/
def Recorded (flash : ℕ → Byte) (s : State) : Prop := s.flash = applyOps s.ops flash

theorem Recorded.perform {s : State} (hs : Recorded flash s) {s' : State} {o : FlashOp}
    (hflash : s'.flash = o.apply s.flash) (hops : s'.ops = s.ops ++ [o]) : Recorded flash s' := by
  rw [Recorded, hflash, hops, show s.flash = applyOps s.ops flash from hs]
  exact (List.foldl_concat (fun f o => FlashOp.apply o f) flash o s.ops).symm

theorem Recorded.storeRead {s : State} (hs : Recorded flash s) :
    Recorded flash (storeRead m u s) := by
  refine readFlash_inv (reader_delivers m) (fun _ _ => Iff.rfl) (fun s l hs => ?_) hs
  rw [deliver]
  cases decode l with
  | none => exact hs
  | some r =>
    rcases callback_flash (m := m) r s with ⟨h₁, h₂⟩ | ⟨d, -, -, -, h₁, h₂⟩
    · rw [Recorded, Option.elim_some, h₁, h₂]
      exact hs
    · exact hs.perform h₁ h₂

/-- **`Main` leaves flash** as its operations do. -/
theorem main_flash (m : Comparator) (u : UICR) (flash : ℕ → Byte) :
    (main m u flash).flash = applyOps (main m u flash).ops flash := by
  change Recorded flash (main m u flash)
  have hboot : Recorded flash (State.boot flash) := rfl
  unfold main mainWith
  split_ifs
  · exact hboot
  have hsearch : Recorded flash (searchPass (storeRead m u) (State.boot flash)) :=
    Recorded.storeRead hboot
  dsimp only
  generalize searchPass (storeRead m u) (State.boot flash) = s at *
  have hcompare : Recorded flash (comparePass (storeRead m u) s) := Recorded.storeRead hsearch
  generalize comparePass (storeRead m u) s = s' at *
  split_ifs
  · exact hsearch
  · exact hcompare
  · exact hcompare
  · refine Recorded.storeRead (s := { erasePages _ _ _ s' with op := .write }) ?_
    exact erasePages_inv (fun s pg hs => hs.perform rfl rfl) _ _ s' hcompare

/-! ## Where they are -/

/-- The page of the address is one of the image. -/
def InPages (h : SuInfo) (a : ℕ) : Prop :=
  h.start.toNat / flashPage ≤ a / flashPage ∧ a / flashPage * flashPage < h.stop.toNat

instance (h : SuInfo) (a : ℕ) : Decidable (InPages h a) := inferInstanceAs (Decidable (_ ∧ _))

theorem inPages_of_not_outside {a : ℕ} (ha : ¬ Outside h a) : InPages h a := by
  simp only [Outside, not_or, not_lt, not_le] at ha
  exact ⟨Nat.div_le_div_right ha.1, by simp only [flashPage]; omega⟩

/-- A chunk of the update is in its pages. -/
theorem inPages_of_chunk {d : SuData} (hd : (StoreRecord.chunk d).WellFormed)
    (hf : ¬ Foreign h d) {a : ℕ} (ha : a / flashPage = d.address.toNat / flashPage) :
    InPages h a := by
  have hin := (not_foreign_iff hd.2.1).1 hf
  refine ⟨ha ▸ Nat.div_le_div_right hin.2.1, ?_⟩
  simp only [flashPage] at *
  omega

/-- **All flash operations are in the pages of the image.** -/
theorem main_touches {pre post : List StoreRecord} (hbad : ¬ u.Bad)
    (hrs : storeRecords u flash = pre ++ .info h :: post) (ha : Applies pre h post) :
    ∀ o ∈ (main m u flash).ops, ∀ a, o.Touches a → InPages h a := by
  have hS := UICR.start_le hbad
  have hw := storeRecords_wellFormed u flash
  obtain ⟨b, hmain⟩ := main_past (m := m) hbad hrs ha
  obtain ⟨-, hops, -, hdone⟩ := compareEnd_spec (m := m) flash hrs ha.selects hw
  have hnone : ∀ o ∈ (compareEnd m (storeRecords u flash) flash h).ops, ∀ a, o.Touches a →
      InPages h a := fun o ho => by simp [hops] at ho
  rw [hmain]
  split_ifs with hhung hclear
  · exact hnone
  · exact hnone
  obtain ⟨hcmp, -, hpages, -⟩ := hdone (by simpa using hhung)
  obtain ⟨-, ⟨ops, hops', htouch⟩, hinfo, -⟩ :=
    erasePages_spec (S := u.storeStart.toNat) flashPages flashPage
      ((compareEnd m (storeRecords u flash) flash h).setBuf b) (by decide)
      (by simp only [flashPages, flashPage]; omega)
  refine (writePass_inv (P := fun s => s.op = .write ∧ s.suInfo = h ∧
    ∀ o ∈ s.ops, ∀ a, o.Touches a → InPages h a) (fun _ _ => Iff.rfl) (fun r s hr hs => ?_)
    ⟨rfl, hinfo.trans hcmp.suInfo, fun o ho a ht => ?_⟩).2.2
  · obtain ⟨hop, hsu, hin⟩ := hs
    refine ⟨(callback_op r s).trans hop, (callback_suInfo (by rw [hop]; decide) r).trans hsu, ?_⟩
    rcases callback_flash (m := m) r s with ⟨-, h₁⟩ | ⟨d, rfl, -, hf, -, h₁⟩
    · rwa [h₁]
    · rw [h₁]
      intro o ho a ht
      rcases List.mem_append.1 ho with ho | ho
      · exact hin o ho a ht
      · obtain rfl := List.mem_singleton.1 ho
        obtain ⟨h₂, h₃⟩ := ht
        have hmod := hr.1
        rw [hr.2.2] at h₃
        refine inPages_of_chunk hr (hsu ▸ hf) ?_
        simp only [oqSuChunk, flashPage] at *
        omega
  · -- an erased page is that of a chunk
    change o ∈ (erasePages u.storeStart.toNat flashPages flashPage
      ((compareEnd m (storeRecords u flash) flash h).setBuf b)).ops at ho
    rw [hops', show ((compareEnd m (storeRecords u flash) flash h).setBuf b).ops = [] from hops,
      List.nil_append] at ho
    obtain ⟨-, -, hset⟩ := (htouch a).1 ⟨o, ho, ht⟩
    by_cases hp : a / flashPage < 64
    · obtain ⟨i, d, hi, -, hpage⟩ := (hpages _ hp).1 hset
      obtain ⟨hmem, hf⟩ := mem_accepted.1 (List.mem_of_getElem? hi)
      exact inPages_of_chunk (hw _ hmem) hf hpage.symm
    · obtain ⟨-, hstop, -⟩ := pages_range hcmp.shape
      rw [mapIsSet_of_ge (by simp only [mapEnd, flashPage] at *; omega)] at hset
      cases hset

/-- **Without an update to apply** there are none. -/
theorem main_idle (hpast : ¬ PastSearch m u flash) :
    (main m u flash).ops = [] ∧ (main m u flash).hung = false := by
  unfold main mainWith
  by_cases hbad : u.Bad
  · rw [if_pos hbad]
    exact ⟨rfl, rfl⟩
  have hfails : (searchPass (storeRead m u) (State.boot flash)).SearchFails := by
    by_contra hno
    exact hpast ⟨hbad, hno⟩
  obtain ⟨b, hb⟩ := searchPass_eq m u flash
  rw [if_neg hbad]
  dsimp only
  rw [if_pos hfails, hb]
  exact ⟨searchPass_ops _, (searchPass_rest m _ flash).2.1⟩

/-! ## Power losses -/

/-- The power is lost after some of the flash operations. What the next one is
about may read anything then. -/
def Interrupted (m : Comparator) (u : UICR) (flash flash' : ℕ → Byte) : Prop :=
  ∃ n, ∀ a, (∀ o, (main m u flash).ops[n]? = some o → ¬ o.Touches a) →
    flash' a = applyOps ((main m u flash).ops.take n) flash a

/-- After any number of power losses a run gets to `GoSoftDevice`. -/
def Boots (m : Comparator) (u : UICR) (flash flash' : ℕ → Byte) : Prop :=
  ∃ f, Relation.ReflTransGen (Interrupted m u) flash f ∧ (main m u f).hung = false ∧
    flash' = (main m u f).flash

/-- What no operation touches reads as before. -/
theorem Interrupted.flash_eq (hi : Interrupted m u flash flash') {a : ℕ}
    (hno : ∀ o ∈ (main m u flash).ops, ¬ o.Touches a) : flash' a = flash a := by
  obtain ⟨n, hn⟩ := hi
  rw [hn a fun o ho => hno o (List.mem_of_getElem? ho)]
  exact applyOps_of_not_touches _ _ fun o ho => hno o (List.mem_of_mem_take ho)

/-- The store has an update for `Main` to apply, and its pages are below the
store. -/
structure Pending (u : UICR) (flash : ℕ → Byte) (h : SuInfo) : Prop where
  good : ¬ u.Bad
  applies : ∃ pre post, storeRecords u flash = pre ++ .info h :: post ∧ Applies pre h post
  below : ∀ a, InPages h a → a < u.storeStart.toNat

/-- **The store keeps the update** while its pages change. -/
theorem Pending.congr (hp : Pending u flash h) (heq : ∀ a, ¬ InPages h a → flash' a = flash a) :
    storeRecords u flash' = storeRecords u flash ∧ Pending u flash' h := by
  have hsame : storeRecords u flash' = storeRecords u flash := by
    rw [storeRecords, storeRecords]
    refine congrArg _ (rawRecords_congr fun a ha => flashWord_congr fun i hi => heq i fun hin => ?_)
    have hlt := hp.below i hin
    have hle : u.storeStart.toNat ≤ a := ha
    omega
  exact ⟨hsame, hp.good, hsame ▸ hp.applies, hp.below⟩

theorem Pending.interrupted (hp : Pending u flash h) (hi : Interrupted m u flash flash') :
    ∀ a, ¬ InPages h a → flash' a = flash a := by
  obtain ⟨pre, post, hrs, ha⟩ := hp.applies
  exact fun a hno => hi.flash_eq fun o ho ht => hno (main_touches hp.good hrs ha o ho a ht)

/-- **Power losses leave what is in no page of the update.** -/
theorem Pending.losses (hp : Pending u flash h)
    (hi : Relation.ReflTransGen (Interrupted m u) flash flash') :
    ∀ a, ¬ InPages h a → flash' a = flash a := by
  induction hi with
  | refl => exact fun _ _ => rfl
  | tail _ hstep ih =>
    intro a hno
    rw [(hp.congr ih).2.interrupted hstep a hno, ih a hno]

/-- The comparison of a chunk below `0x40000` returns, as long as flash holds
this byte at this address. -/
def Returns (m : Comparator) (last : ℕ) (b : Byte) : Prop :=
  ∀ i d f, (StoreRecord.chunk d).WellFormed → d.address.toNat + oqSuChunk ≤ mapEnd → f last = b →
    m i d f ≠ none

/-- **A run gets to its end**, when the byte the comparisons rely on is not
below the store. -/
theorem Pending.returns {last : ℕ} (hp : Pending u flash h) (hstop : h.stop.toNat ≤ mapEnd)
    (hlast : u.storeStart.toNat ≤ last / flashPage * flashPage)
    (hm : Returns m last (flash last)) : (Loader.main m u flash).hung = false := by
  obtain ⟨pre, post, hrs, ha⟩ := hp.applies
  have ho : Outside h last := by
    by_contra hin
    have := hp.below last (inPages_of_not_outside hin)
    simp only [flashPage] at hlast
    omega
  refine main_returns hp.good hrs ha ho hlast fun i d f hd hf => hm i d f hd ?_
  exact (((not_foreign_iff hd.2.1).1 hf).2.2).trans hstop

/-- **A run to the end** leaves the update in flash. -/
theorem Pending.main (hp : Pending u flash h) (hm : Truthful m) (hstop : h.stop.toNat < mapEnd)
    (hcons : Consistent (accepted h (storeRecords u flash)))
    (hgo : (main m u flash).hung = false) :
    ∀ d ∈ accepted h (storeRecords u flash), Settled (Loader.main m u flash).flash d := by
  intro d hd
  obtain ⟨pre, post, hrs, ha⟩ := hp.applies
  have hw := storeRecords_wellFormed u flash
  have hstart : h.stop.toNat ≤ u.storeStart.toNat := by
    have hsane := not_insane_iff.1 ha.selects.sane
    have := hp.below (h.stop.toNat - 1) (inPages_of_not_outside fun ho => by
      simp only [Outside] at ho
      omega)
    omega
  have hundamaged : (Loader.main m u flash).Undamaged u.storeStart.toNat :=
    fun o ho a ht => hp.below a (main_touches hp.good hrs ha o ho a ht)
  rcases main_refines m u flash with ⟨-, b, hb⟩ | ⟨-, hno⟩
  · rw [hb] at hgo ⊢
    exact mainRecords_settles_of hm flash hp.good hrs ha hw hstop hstart hcons hgo d hd
  · exact absurd hundamaged hno

/-- **However often the power is lost**, the boot loader leaves what is in no
page of the update. -/
theorem Boots.outside (hb : Boots m u flash flash') (hp : Pending u flash h) :
    ∀ a, ¬ InPages h a → flash' a = flash a := by
  obtain ⟨f, hi, -, rfl⟩ := hb
  have heq := hp.losses hi
  obtain ⟨pre, post, hrs, ha⟩ := (hp.congr heq).2.applies
  intro a hno
  rw [main_flash, applyOps_of_not_touches _ _ fun o ho ht =>
    hno (main_touches hp.good hrs ha o ho a ht), heq a hno]

/-- Without an update to apply flash stays as it is. -/
theorem Boots.idle (hb : Boots m u flash flash') (hpast : ¬ PastSearch m u flash) :
    flash' = flash := by
  obtain ⟨f, hi, -, rfl⟩ := hb
  have hf : f = flash := by
    induction hi with
    | refl => rfl
    | tail _ hstep ih =>
      subst ih
      exact funext fun a => hstep.flash_eq fun o ho => by simp [(main_idle hpast).1] at ho
  rw [hf, main_flash, (main_idle hpast).1]
  rfl

end Loader

end AntTracer
