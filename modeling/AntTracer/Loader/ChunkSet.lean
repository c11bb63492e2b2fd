import AntTracer.Library.Runs
import AntTracer.Loader.MapChecked

/-!
# The chunk map is a set

What a run of operations makes of a map, with every byte used checked, against
what the same operations make of a set of slots (`chunkSet`). A map without a
byte is the exception: all operations refuse it, and `MapIsClearAll` does so by
saying that it is not clear (`not_chunkSet`).
-/

namespace AntTracer

namespace Loader

/-! ## Operations -/

/-- An operation on a map. -/
inductive MapOp
  | clearAll
  | set (address : ℕ)
  | clear (address : ℕ)
  | setRange (s e : ℕ)

/-- What it does. -/
def MapOp.apply (m : Map) : MapOp → Map
  | .clearAll => mapClearAll m
  | .set a => mapSet m a
  | .clear a => mapClear m a
  | .setRange s e => mapSetRange m s e

/-- The same, unless it uses a byte that is not the map's. -/
def MapOp.applyChecked (m : Map) : MapOp → Option Map
  | .clearAll => MapChecked.mapClearAll m
  | .set a => MapChecked.mapSet m a
  | .clear a => MapChecked.mapClear m a
  | .setRange s e => MapChecked.mapSetRange m s e

/-- A range is one of whole chunks, and ends below the map's end. -/
def MapOp.Whole (stop chunkSize : ℕ) : MapOp → Prop
  | .setRange s e => chunkSize ∣ s ∧ chunkSize ∣ e ∧ e < stop
  | _ => True

/-- The same on a set of slots, of a range of addresses. -/
def MapOp.onSet (start stop chunkSize : ℕ) (S : Set ℕ) : MapOp → Set ℕ
  | .clearAll => ∅
  | .set a => {k | k ∈ S ∨ (start ≤ a ∧ a < stop ∧ k = (a - start) / chunkSize)}
  | .clear a => {k | k ∈ S ∧ ¬ (start ≤ a ∧ a < stop ∧ k = (a - start) / chunkSize)}
  | .setRange s e =>
    {k | k ∈ S ∨ (start ≤ s ∧ ∃ a, s ≤ a ∧ a < e ∧ k = (a - start) / chunkSize)}

/-- What a map tells, and that no test uses a byte that is not its own. -/
structure Tells (start stop chunkSize : ℕ) (S : Set ℕ) (m : Map) : Prop where
  /-- an address is set when its slot is in the set -/
  isSet : ∀ a, ∃ b, MapChecked.mapIsSet m a = some b ∧
    (b = true ↔ start ≤ a ∧ a < stop ∧ (a - start) / chunkSize ∈ S)
  /-- the map is clear when the set is empty -/
  isClearAll : ∃ b, MapChecked.mapIsClearAll m = some b ∧ (b = true ↔ S = ∅)

/-- **The map is the set**, and no operation uses a byte that is not the map's. -/
def ChunkSet (start stop chunkSize : Word) (ops : List MapOp) : Prop :=
  ∃ m, ops.foldlM MapOp.applyChecked (mapDefine start stop chunkSize) = some m ∧
    Tells start.toNat stop.toNat chunkSize.toNat
      (Runs.run (MapOp.onSet start.toNat stop.toNat chunkSize.toNat) ∅ ops) m

/-! ## The simulation -/

/-- The map holds the slots of the set, which are all below its end. -/
structure Refines (S : Set ℕ) (m : Map) : Prop where
  laid : m.Laid
  dvd : m.chunkSize ∣ m.start
  lt : ∀ k ∈ S, k < m.slots
  has : ∀ k < m.slots, Has m k ↔ k ∈ S

section Simulation

variable {m : Map} {S : Set ℕ} {o : MapOp}

theorem MapOp.shape_apply (o : MapOp) : (o.apply m).shape = m.shape := by
  cases o <;> simp [MapOp.apply]

/-- **An operation uses the bytes of the map alone.** -/
theorem Refines.applyChecked_eq (h : Refines S m) (ho : o.Whole m.stop m.chunkSize) :
    o.applyChecked m = some (o.apply m) := by
  cases o with
  | clearAll => exact MapChecked.mapClearAll_eq h.laid
  | set a => exact MapChecked.mapSet_eq h.laid a
  | clear a => exact MapChecked.mapClear_eq h.laid a
  | setRange s e => exact MapChecked.mapSetRange_eq h.laid (Nat.dvd_sub ho.2.1 h.dvd)

theorem mapClear_of_outside {a : ℕ} (ha : ¬ (m.start ≤ a ∧ a < m.stop)) : mapClear m a = m := by
  unfold mapClear
  split_ifs <;> first | rfl | omega

theorem mapSet_of_outside {a : ℕ} (ha : ¬ (m.start ≤ a ∧ a < m.stop)) : mapSet m a = m := by
  unfold mapSet
  split_ifs <;> first | rfl | omega

theorem mapSetRange_of_outside {s e : ℕ} (h : ¬ (m.start ≤ s ∧ s < e)) : mapSetRange m s e = m := by
  unfold mapSetRange
  split_ifs <;> first | rfl | omega

/-- The slots of the addresses of a range of whole chunks. -/
theorem Map.Laid.slots_of_range (h : m.Laid) {s e k : ℕ} (hstart : m.start ≤ s)
    (hs : m.chunkSize ∣ s - m.start) (he : m.chunkSize ∣ e - m.start) :
    (∃ a, s ≤ a ∧ a < e ∧ k = (a - m.start) / m.chunkSize) ↔
      m.slotOf s ≤ k ∧ k < m.slotOf e := by
  have hpos := h.chunkSize_pos
  constructor
  · rintro ⟨a, h₁, h₂, rfl⟩
    refine ⟨Nat.div_le_div_right (by omega), ?_⟩
    rw [Map.slotOf, Nat.div_lt_iff_lt_mul hpos, Nat.div_mul_cancel he]
    omega
  · -- the first address of the slot
    rintro ⟨h₁, h₂⟩
    have hle : s - m.start ≤ k * m.chunkSize := by
      have := Nat.mul_le_mul_right m.chunkSize h₁
      rwa [Map.slotOf, Nat.div_mul_cancel hs] at this
    have hlt : (k + 1) * m.chunkSize ≤ e - m.start := by
      have := Nat.mul_le_mul_right m.chunkSize (Nat.succ_le_of_lt h₂)
      rwa [Map.slotOf, Nat.div_mul_cancel he] at this
    rw [Nat.add_mul, Nat.one_mul] at hlt
    refine ⟨m.start + k * m.chunkSize, by omega, by omega, ?_⟩
    rw [Nat.add_sub_cancel_left, Nat.mul_div_cancel k hpos]

/-- **One operation** on both. -/
theorem Refines.apply (h : Refines S m) (ho : o.Whole m.stop m.chunkSize) :
    Refines (o.onSet m.start m.stop m.chunkSize S) (o.apply m) := by
  -- no operation changes the addresses and the slots a map is for
  have hshape : (o.apply m).shape = m.shape := o.shape_apply
  have hlaid := h.laid.of_shape hshape
  have hslots : (o.apply m).slots = m.slots := by
    simp only [Map.shape, Prod.mk.injEq] at hshape
    rw [Map.slots, Map.slots, hshape.1, hshape.2.1, hshape.2.2.1]
  have hdvd : (o.apply m).chunkSize ∣ (o.apply m).start := by
    simp only [Map.shape, Prod.mk.injEq] at hshape
    rw [hshape.1, hshape.2.2.1]
    exact h.dvd
  suffices hset : (∀ k ∈ o.onSet m.start m.stop m.chunkSize S, k < m.slots) ∧
      ∀ k < m.slots, Has (o.apply m) k ↔ k ∈ o.onSet m.start m.stop m.chunkSize S from
    ⟨hlaid, hdvd, by rw [hslots]; exact hset.1, by rw [hslots]; exact hset.2⟩
  cases o with
  | clearAll =>
    refine ⟨fun k hk => absurd hk (Set.notMem_empty k), fun k hk => ?_⟩
    exact iff_of_false (not_has_mapClearAll h.laid hk) (Set.notMem_empty k)
  | set a =>
    refine ⟨fun k hk => ?_, fun k hk => ?_⟩
    · rcases hk with hk | ⟨-, ha, rfl⟩
      · exact h.lt k hk
      · exact h.laid.slotOf_lt ha
    · by_cases ha : m.start ≤ a ∧ a < m.stop
      · rw [MapOp.apply, has_mapSet h.laid ha.1 ha.2, h.has k hk]
        exact or_congr_right ⟨fun heq => ⟨ha.1, ha.2, heq⟩, fun hc => hc.2.2⟩
      · rw [MapOp.apply, mapSet_of_outside ha, h.has k hk]
        exact ⟨Or.inl, fun hc => hc.resolve_right fun hc => ha ⟨hc.1, hc.2.1⟩⟩
  | clear a =>
    refine ⟨fun k hk => h.lt k hk.1, fun k hk => ?_⟩
    by_cases ha : m.start ≤ a ∧ a < m.stop
    · rw [MapOp.apply, has_mapClear h.laid ha.1 ha.2, h.has k hk]
      exact and_congr_right fun _ => not_congr ⟨fun heq => ⟨ha.1, ha.2, heq⟩, fun hc => hc.2.2⟩
    · -- an address outside is in no slot of the set either
      rw [MapOp.apply, mapClear_of_outside ha, h.has k hk]
      exact ⟨fun hc => ⟨hc, fun hc => ha ⟨hc.1, hc.2.1⟩⟩, And.left⟩
  | setRange s e =>
    obtain ⟨hs, he, hlt⟩ := ho
    have hs' := Nat.dvd_sub hs h.dvd
    have he' := Nat.dvd_sub he h.dvd
    have hend := h.laid.endSlot_eq he'
    refine ⟨fun k hk => ?_, fun k hk => ?_⟩
    · rcases hk with hk | ⟨hstart, hk⟩
      · exact h.lt k hk
      · exact ((h.laid.slots_of_range hstart hs' he').1 hk).2.trans (h.laid.slotOf_lt hlt)
    · by_cases hr : m.start ≤ s ∧ s < e
      · rw [MapOp.apply, has_mapSetRange h.laid hr.1 hr.2 hlt, h.has k hk, hend]
        refine or_congr_right ?_
        rw [← h.laid.slots_of_range hr.1 hs' he']
        exact (and_iff_right hr.1).symm
      · rw [MapOp.apply, mapSetRange_of_outside hr, h.has k hk]
        refine ⟨Or.inl, fun hc => hc.resolve_right ?_⟩
        rintro ⟨hstart, a, h₁, h₂, -⟩
        exact hr ⟨hstart, h₁.trans_lt h₂⟩

theorem Refines.isSet_iff (h : Refines S m) {a : ℕ} :
    mapIsSet m a = true ↔ m.start ≤ a ∧ a < m.stop ∧ (a - m.start) / m.chunkSize ∈ S := by
  by_cases ha : m.start ≤ a ∧ a < m.stop
  · rw [mapIsSet_iff h.laid ha.1 ha.2, h.has _ (h.laid.slotOf_lt ha.2), and_iff_right ha.1,
      and_iff_right ha.2]
    rfl
  · have hout : mapIsSet m a = false := by
      unfold mapIsSet
      split_ifs <;> first | rfl | omega
    rw [hout]
    exact iff_of_false Bool.false_ne_true fun hc => ha ⟨hc.1, hc.2.1⟩

theorem Refines.isClearAll_iff (h : Refines S m) : mapIsClearAll m = true ↔ S = ∅ := by
  rw [mapIsClearAll_iff h.laid, Set.eq_empty_iff_forall_notMem]
  constructor
  · exact fun hclear k hk => hclear k (h.lt k hk) ((h.has k (h.lt k hk)).2 hk)
  · exact fun hempty k hk hhas => hempty k ((h.has k hk).1 hhas)

theorem Refines.tells (h : Refines S m) : Tells m.start m.stop m.chunkSize S m where
  isSet := fun a => ⟨_, MapChecked.mapIsSet_eq h.laid a, h.isSet_iff⟩
  isClearAll := ⟨_, MapChecked.mapIsClearAll_eq h.laid, h.isClearAll_iff⟩

end Simulation

/-! ## Runs -/

section Runs

variable {start stop chunkSize : Word} {ops : List MapOp}

/-- A run on a map of a range that is not empty. -/
theorem chunkSet_of_lt (hstart : chunkSize.toNat ∣ start.toNat)
    (hstop : chunkSize.toNat ∣ stop.toNat) (hlt : start.toNat < stop.toNat)
    (hcount : (mapDefine start stop chunkSize).entryCount ≠ 0)
    (hops : ∀ o ∈ ops, o.Whole stop.toNat chunkSize.toNat) : ChunkSet start stop chunkSize ops := by
  have hnew : Refines ∅ (mapDefine start stop chunkSize) :=
    ⟨mapDefine_laid hlt (Nat.dvd_sub hstop hstart) hcount, hstart,
      fun k hk => absurd hk (Set.notMem_empty k),
      fun k _ => iff_of_false (by simp [Has, mapDefine]) (Set.notMem_empty k)⟩
  -- an operation keeps the addresses and the set
  have hstep : ∀ S m (o : MapOp), o.Whole stop.toNat chunkSize.toNat →
      (Refines S m ∧ m.shape = (mapDefine start stop chunkSize).shape) →
      ∃ m', o.applyChecked m = some m' ∧
        Refines (o.onSet start.toNat stop.toNat chunkSize.toNat S) m' ∧
          m'.shape = (mapDefine start stop chunkSize).shape := by
    rintro S m o ho ⟨h, hshape⟩
    obtain ⟨h₁, h₂, h₃⟩ := Map.range_of_shape hshape
    rw [← h₂, ← h₃] at ho
    have happly := h.apply ho
    rw [h₁, h₂, h₃] at happly
    exact ⟨o.apply m, h.applyChecked_eq ho, happly, o.shape_apply.trans hshape⟩
  obtain ⟨m, hrun, h, hshape⟩ :=
    Runs.exists_foldlM_run_of (f := MapOp.applyChecked) hstep ⟨hnew, rfl⟩ hops
  obtain ⟨h₁, h₂, h₃⟩ := Map.range_of_shape hshape
  have htells := h.tells
  rw [h₁, h₂, h₃] at htells
  exact ⟨m, hrun, htells⟩

theorem chunkSize_ne_zero (hcount : (mapDefine start stop chunkSize).entryCount ≠ 0) :
    chunkSize.toNat ≠ 0 := by
  intro h0
  obtain rfl : chunkSize = 0#32 := BitVec.eq_of_toNat_eq h0
  exact hcount (by simp [mapDefine])

/-- The test of a map without a bit set. -/
theorem isClearFrom_of_zero {m : Map} (h : ∀ i, m.bits i = 0#8) (q r : ℕ) :
    ∀ (n i : ℕ) (mask : Byte), isClearFrom m q r n i mask = true := by
  intro n
  induction n with
  | zero => intro i mask; rfl
  | succ n ih =>
    intro i mask
    simp only [isClearFrom, h, BitVec.zero_and, ne_eq, not_true_eq_false, if_false, ih]

/-- A run on a map whose range is empty, or ends before it begins: there is no
address in it, and the map does not change. -/
theorem chunkSet_of_le (hle : stop.toNat ≤ start.toNat)
    (hcount : (mapDefine start stop chunkSize).entryCount ≠ 0)
    (hops : ∀ o ∈ ops, o.Whole stop.toNat chunkSize.toNat) : ChunkSet start stop chunkSize ops := by
  have hvalid : ¬ (mapDefine start stop chunkSize).Invalid :=
    not_or.2 ⟨chunkSize_ne_zero hcount, hcount⟩
  have hout : ∀ a, a < (mapDefine start stop chunkSize).start ∨
      a ≥ (mapDefine start stop chunkSize).stop := fun a => by
    change a < start.toNat ∨ stop.toNat ≤ a
    omega
  have hstep : ∀ (S : Set ℕ) (m : Map) (o : MapOp), o.Whole stop.toNat chunkSize.toNat →
      (S = ∅ ∧ m = mapDefine start stop chunkSize) →
      ∃ m', o.applyChecked m = some m' ∧
        o.onSet start.toNat stop.toNat chunkSize.toNat S = ∅ ∧
          m' = mapDefine start stop chunkSize := by
    rintro S m o ho ⟨rfl, rfl⟩
    refine ⟨_, ?_, ?_, rfl⟩
    · cases o with
      | clearAll =>
        have hzero : setBytes (mapDefine start stop chunkSize).bits 0 0x00#8
            (mapDefine start stop chunkSize).entryCount = fun _ => 0#8 :=
          funext fun j => ite_self _
        rw [MapOp.applyChecked, MapChecked.mapClearAll, if_neg hvalid,
          MapChecked.memset_eq _ (by omega), hzero]
        rfl
      | set a => rw [MapOp.applyChecked, MapChecked.mapSet, if_neg hvalid, if_pos (hout a)]
      | clear a => rw [MapOp.applyChecked, MapChecked.mapClear, if_neg hvalid, if_pos (hout a)]
      | setRange s e =>
        have hr : s < start.toNat ∨ e ≥ stop.toNat ∨ s ≥ e := by
          have := ho.2.2
          omega
        rw [MapOp.applyChecked, MapChecked.mapSetRange, if_neg hvalid]
        exact if_pos hr
    · -- the set stays empty
      rw [Set.eq_empty_iff_forall_notMem]
      intro k hk
      cases o with
      | clearAll => exact hk
      | set a =>
        obtain hk | ⟨h₁, h₂, -⟩ := hk
        · exact hk
        · omega
      | clear a => exact hk.1
      | setRange s e =>
        obtain hk | ⟨h₁, a, h₂, h₃, -⟩ := hk
        · exact hk
        · have := ho.2.2
          omega
  obtain ⟨m, hrun, hset, rfl⟩ :=
    Runs.exists_foldlM_run_of (f := MapOp.applyChecked) hstep ⟨rfl, rfl⟩ hops
  refine ⟨_, hrun, ⟨fun a => ⟨false, ?_, ?_⟩, true, ?_, by simp [hset]⟩⟩
  · rw [MapChecked.mapIsSet, if_neg hvalid, if_pos (hout a)]
  · refine iff_of_false Bool.false_ne_true fun hc => ?_
    omega
  · rw [MapChecked.mapIsClearAll, if_neg hvalid, MapChecked.isClearFrom_eq _ (by omega),
      isClearFrom_of_zero fun i => rfl]

/-- **The chunk map is a set**, if it has a byte. -/
theorem chunkSet (hstart : chunkSize.toNat ∣ start.toNat) (hstop : chunkSize.toNat ∣ stop.toNat)
    (hcount : (mapDefine start stop chunkSize).entryCount ≠ 0)
    (hops : ∀ o ∈ ops, o.Whole stop.toNat chunkSize.toNat) : ChunkSet start stop chunkSize ops := by
  rcases Nat.lt_or_ge start.toNat stop.toNat with hlt | hle
  · exact chunkSet_of_lt hstart hstop hlt hcount hops
  · exact chunkSet_of_le hle hcount hops

/-- Twelve slots, and a range over a byte's end. -/
theorem chunkSet_twelve :
    ChunkSet 128#32 896#32 64#32 [.set 130, .setRange 512 832, .clear 576, .set 4, .clearAll] :=
  chunkSet (by decide) (by decide) (by decide) fun o ho => by
    simp only [List.mem_cons, List.not_mem_nil, or_false] at ho
    rcases ho with rfl | rfl | rfl | rfl | rfl
    · trivial
    · exact ⟨by decide, by decide, by decide⟩
    · trivial
    · trivial
    · trivial

/-- **A map without a byte** is empty, and not clear: that of an empty range,
and that of a range whose end wraps where it is rounded up to chunks. -/
theorem not_chunkSet :
    ¬ ChunkSet 0#32 0#32 64#32 [] ∧ ¬ ChunkSet 0#32 0xc0000000#32 0xc0000000#32 [] := by
  constructor <;>
    · rintro ⟨m, hm, -, b, hclear, hb⟩
      obtain rfl := Option.some.inj hm
      obtain rfl : false = b := Option.some.inj hclear
      exact absurd (hb.2 rfl) (by decide)

end Runs

end Loader

end AntTracer
