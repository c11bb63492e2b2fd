import AntTracer.App.Start

/-!
# The configuration page

The page has 32 slots. A slot is erased, or holds a configuration or a piece
of one, and then its first word, where the sequence number is, tells the two
apart: nothing but that number is ever in it (`Config.Numbered`). So the slot
`StoreSuperLoop` finds free is wholly erased.
-/

namespace AntTracer

namespace App

/-! ## The first word -/

/-- There is only the sequence number in the first word. -/
def Config.Numbered (c : Config) : Prop := c.confArray 0 &&& 0xffff0000#32 = 0#32

namespace Config

variable {c : Config}

theorem Numbered.first_ne (h : c.Numbered) : c.confArray 0 ≠ erasedWord := by
  intro h₀
  rw [Numbered, h₀] at h
  revert h
  decide

theorem Numbered.setSequence (h : c.Numbered) (q : BitVec 16) : (c.setSequence q).Numbered := by
  have hq : q.setWidth 32 &&& 0xffff0000#32 = 0#32 := by
    refine BitVec.eq_of_getLsbD_eq fun i hi => ?_
    have hm : (0xffff0000#32).getLsbD i = decide (16 ≤ i) := by
      revert i
      decide
    rw [BitVec.getLsbD_and, BitVec.getLsbD_setWidth, hm, BitVec.getLsbD_zero]
    by_cases h16 : 16 ≤ i
    · simp [BitVec.getLsbD_of_ge q i h16]
    · simp [h16]
  have hc : c.confArray 0 &&& 0xffff0000#32 = 0#32 := h
  rw [Numbered, Config.setSequence]
  dsimp only
  rw [Function.update_self, hc, BitVec.zero_or, hq]

theorem Numbered.setCRC (h : c.Numbered) (x : Word) : (c.setCRC x).Numbered := by
  rw [Numbered, setCRC_confArray_zero]
  exact h

theorem numbered_configDefault (c : Config) : (configDefault c).Numbered := by
  refine Numbered.setSequence ?_ _
  rw [Numbered]
  dsimp only
  rw [Function.update_of_ne (by decide)]
  decide

end Config

/-! ## Slots -/

/-- Each slot is erased, or begins with a sequence number. -/
def Slots (flash : ℕ → Word) : Prop :=
  ∀ i < configSlots, (∀ j < configWords, flash (slotAddr i + j) = erasedWord) ∨
    (slotConfig flash i).Numbered

/-- The whole page is erased. -/
def PageBlank (flash : ℕ → Word) : Prop :=
  ∀ a, configStart ≤ a → a < configStart + pageWords → flash a = erasedWord

section Slots

variable {flash flash' : ℕ → Word} {i i' : ℕ} {c : Config}

theorem slotAddr_lt (hi : i < configSlots) {j : ℕ} (hj : j < configWords) :
    configStart ≤ slotAddr i + j ∧ slotAddr i + j < configStart + pageWords := by
  simp only [slotAddr, configSlots, configWords, pageWords] at *
  omega

theorem freeSlot_eq_some (h : freeSlot flash = some i) :
    i < configSlots ∧ flash (slotAddr i) = erasedWord := by
  have hmem := List.mem_of_find?_eq_some h
  have hfree := List.find?_some h
  exact ⟨List.mem_range.1 hmem, by simpa using hfree⟩

theorem freeSlot_eq_none : freeSlot flash = none ↔ ∀ i < configSlots,
    flash (slotAddr i) ≠ erasedWord := by
  rw [freeSlot, List.find?_eq_none]
  simp only [List.mem_range, decide_eq_true_eq]

theorem freeSlot_congr (h : ∀ i < configSlots, flash' (slotAddr i) = flash (slotAddr i)) :
    freeSlot flash' = none ↔ freeSlot flash = none := by
  rw [freeSlot_eq_none, freeSlot_eq_none]
  exact forall_congr' fun i => ⟨fun h' hi => h i hi ▸ h' hi, fun h' hi => (h i hi).symm ▸ h' hi⟩

theorem slotConfig_congr (hi : i < configSlots)
    (h : ∀ a, configStart ≤ a → a < configStart + pageWords → flash' a = flash a) :
    slotConfig flash' i = slotConfig flash i :=
  congrArg Config.mk (funext fun j => by
    obtain ⟨h₁, h₂⟩ := slotAddr_lt hi j.isLt
    exact h _ h₁ h₂)

theorem Slots.congr (hs : Slots flash)
    (h : ∀ a, configStart ≤ a → a < configStart + pageWords → flash' a = flash a) :
    Slots flash' := by
  intro i hi
  rw [slotConfig_congr hi h]
  refine (hs i hi).imp (fun hb j hj => ?_) id
  obtain ⟨h₁, h₂⟩ := slotAddr_lt hi hj
  rw [h _ h₁ h₂]
  exact hb j hj

/-- **A slot with an erased first word is erased.** -/
theorem Slots.blank (hs : Slots flash) (hi : i < configSlots)
    (h : flash (slotAddr i) = erasedWord) :
    ∀ j < configWords, flash (slotAddr i + j) = erasedWord :=
  (hs i hi).resolve_right fun hn => hn.first_ne h

theorem PageBlank.slots (h : PageBlank flash) : Slots flash := fun i hi => Or.inl fun j hj => by
  obtain ⟨h₁, h₂⟩ := slotAddr_lt hi hj
  exact h _ h₁ h₂

theorem pageBlank_wipe (flash : ℕ → Word) : PageBlank (wipe flash 126) := fun a h₁ h₂ =>
  if_pos (by simp only [configStart, pageWords] at *; omega)

/-- The store is another page. -/
theorem wipe_config (flash : ℕ → Word) {a : ℕ} (ha : a < storeEnd) : wipe flash 126 a = flash a :=
  if_neg (by simp only [storeEnd, pageWords] at *; omega)

/-- A configuration in its slot. -/
theorem slotConfig_burn (flash : ℕ → Word) (i : ℕ) (c : Config) :
    slotConfig (burn flash (slotAddr i) c.words) i = c := by
  refine congrArg Config.mk (funext fun j => ?_)
  have hj : j.val < c.words.length := by simp
  rw [burn_at hj]
  exact List.getElem_ofFn _

/-- The other slots. -/
theorem slotConfig_burn_other (flash : ℕ → Word) (hne : i' ≠ i) (c : Config) (k : ℕ) :
    slotConfig (burn flash (slotAddr i) (c.words.take k)) i' = slotConfig flash i' := by
  refine congrArg Config.mk (funext fun j => burn_of_not ?_)
  have hj := j.isLt
  rw [List.length_take, Config.length_words]
  simp only [slotAddr, configWords] at *
  omega

theorem slotAddr_burn_other (flash : ℕ → Word) (hne : i' ≠ i) (c : Config) (k : ℕ) :
    ∀ j < configWords,
      burn flash (slotAddr i) (c.words.take k) (slotAddr i' + j) = flash (slotAddr i' + j) := by
  intro j hj
  refine burn_of_not ?_
  rw [List.length_take, Config.length_words]
  simp only [slotAddr, configWords] at *
  omega

/-- The store is elsewhere. -/
theorem burn_slot_store (flash : ℕ → Word) (i : ℕ) (ws : List Word) {a : ℕ} (ha : a < storeEnd) :
    burn flash (slotAddr i) ws a = flash a :=
  burn_of_not (by simp only [slotAddr, configStart, storeEnd, configWords, pageWords] at *; omega)

/-- **A piece of a configuration in an erased slot.** -/
theorem Slots.burn (hs : Slots flash)
    (hblank : ∀ j < configWords, flash (slotAddr i + j) = erasedWord)
    (hc : c.Numbered) (k : ℕ) : Slots (burn flash (slotAddr i) (c.words.take k)) := by
  intro i' hi'
  by_cases hne : i' = i
  · subst hne
    rcases Nat.eq_zero_or_pos k with rfl | hpos
    · rw [List.take_zero, burn_nil]
      exact Or.inl hblank
    · have hlen : 0 < (c.words.take k).length := by
        rw [List.length_take, Config.length_words, configWords]
        omega
      have hfirst : App.burn flash (slotAddr i') (c.words.take k)
        (slotAddr i' + 0) = c.confArray 0 := by
        rw [burn_at hlen, List.getElem_take]
        exact List.getElem_ofFn _
      refine Or.inr ?_
      rw [Config.Numbered]
      exact (congrArg (· &&& 0xffff0000#32) hfirst).trans hc
  · rw [slotConfig_burn_other flash hne]
    exact (hs i' hi').imp (fun hb j hj =>
      (slotAddr_burn_other flash hne c k j hj).trans (hb j hj)) id

/-- **`ConfigInitialize`** finds only such configurations. -/
theorem numbered_configInitialize {s : Store} (hs : Slots s.log.flash) :
    (configInitialize s).config.Numbered := by
  refine List.foldlRecOn _ _ (Config.numbered_configDefault s.config) fun c hc i hi => ?_
  split
  · rename_i hnew
    exact (hs i (List.mem_range.1 hi)).resolve_left fun hb => hnew.1 (hb 0 (by decide))
  · exact hc

end Slots

end App

end AntTracer
