import AntTracer.Misc.Base85RoundTrip

/-!
# What the base-85 coding does not promise

The decoder compares a product that wrapped with the number before it. That
tells a fifth digit that is too large only in a narrow range (`Detected`), and
nothing tells that a short group is too large. The encoder's line end, with
the NUL after it, takes one byte more than its comment has room for whenever
there is a rest of one to three bytes.
-/

namespace AntTracer

namespace App

open Stores

/-! ## Groups -/

/-- The `j`-th group of a string. -/
def b85Group (s : List Byte) (j : ℕ) : List Byte := (s.drop (5 * j)).take 5

/-- A string is an encoding of words: it is in the alphabet, has no group of
one character, and every group, filled up with zero digits, is a number of
32 bits. -/
structure Encodes (s : List Byte) : Prop where
  alphabet : ∀ c ∈ s, c ∈ map1
  noSingle : ∀ j, (b85Group s j).length ≠ 1
  fits : ∀ j, b85Value (b85Group s j) * 85 ^ (5 - (b85Group s j).length) < 2 ^ 32

/-- The fifth digit of a group is seen not to fit: the product for it wraps to
less than its factor. -/
def Detected (g : List Byte) : Prop :=
  g.length = 5 ∧ 2 ^ 32 ≤ 85 * b85Value (g.take 4) ∧
    85 * b85Value (g.take 4) < 2 ^ 32 + b85Value (g.take 4)

/-- What is asked of a group to be read. -/
def ReadsGroup (g : List Byte) : Prop :=
  (∀ c ∈ g, c ∈ map1) ∧ g.length ≠ 1 ∧ ¬ Detected g

/-! ## The decoder -/

variable {m : ℕ → Byte}

/-- The product for the next digit is less than its factor when it wraps that
far. -/
theorem mul_lt_self_iff {n : ℕ} (h : n < 85 ^ 4) :
    BitVec.ofNat 32 n * 85#32 < BitVec.ofNat 32 n ↔ 2 ^ 32 ≤ 85 * n ∧ 85 * n < 2 ^ 32 + n := by
  have hn : n < 2 ^ 32 := h.trans (by decide)
  rw [BitVec.lt_def, BitVec.toNat_mul, BitVec.toNat_ofNat, BitVec.toNat_ofNat,
    Nat.mod_eq_of_lt hn, Nat.mod_eq_of_lt (show 85 < 2 ^ 32 by decide)]
  rcases lt_or_ge (85 * n) (2 ^ 32) with hlt | hge
  · rw [Nat.mul_comm, Nat.mod_eq_of_lt hlt]
    omega
  · rw [Nat.mul_comm, Nat.mod_eq_sub_mod hge, Nat.mod_eq_of_lt (by omega)]
    omega

/-- Up to four characters are read without an overflow. -/
theorem foldlM_b85Step_short {cs : List Byte} (h : ∀ c ∈ cs, c ∈ map1) (hlen : cs.length ≤ 4) :
    cs.foldlM b85Step 0#32 = some (BitVec.ofNat 32 (b85Value cs)) := by
  refine foldlM_b85Step h fun k hk => ?_
  have htake : ∀ c ∈ cs.take k, c ∈ map1 := fun c hc => h c (List.mem_of_mem_take hc)
  have hlt := b85Value_lt htake
  rw [List.length_take, min_eq_left hk.le] at hlt
  have hpow : 85 ^ k ≤ 85 ^ 3 := Nat.pow_le_pow_right (by decide) (by omega)
  omega

/-- **Which groups are read.** -/
theorem isSome_b85ToBin {cnt : ℕ} (h : 1 ≤ cnt) (h' : cnt ≤ 5) (s : ℕ) :
    (b85ToBin cnt m s).isSome ↔ ReadsGroup (block m s cnt) := by
  by_cases hone : cnt = 1
  · subst hone
    simp [b85ToBin, ReadsGroup]
  rw [b85ToBin_eq (by omega) h', Option.isSome_map]
  by_cases halpha : ∀ c ∈ block m s cnt, c ∈ map1
  · by_cases hfive : cnt = 5
    · subst hfive
      -- four characters, and the fifth
      have hsplit : block m s 5 = block m s 4 ++ [m (s + 4)] := block_add 4 1
      have halpha' : ∀ c ∈ block m s 4, c ∈ map1 := fun c hc =>
        halpha c (by rw [hsplit]; exact List.mem_append_left _ hc)
      have hlast : m (s + 4) ∈ map1 := halpha _ (by rw [hsplit]; simp)
      have htake : (block m s 5).take 4 = block m s 4 := block_take
      have hlt : b85Value (block m s 4) < 85 ^ 4 := by
        simpa using b85Value_lt halpha'
      rw [hsplit, List.foldlM_append, foldlM_b85Step_short halpha' (by rw [block_length]),
        Option.bind_eq_bind, Option.bind_some, List.foldlM_cons, b85Step_eq, if_pos hlast,
        ← hsplit]
      simp only [ReadsGroup, Detected, htake, block_length, ← mul_lt_self_iff hlt]
      split_ifs with hwrap
      · simp [hwrap]
      · simpa [hwrap] using halpha
    · rw [foldlM_b85Step_short halpha (by rw [block_length]; omega)]
      simpa [ReadsGroup, Detected, hone, hfive] using halpha
  · have hbad : ∃ c ∈ block m s cnt, c ∉ map1 := by
      push Not at halpha
      exact halpha
    rw [foldlM_b85Step_of_notMem hbad]
    simp only [Option.isSome_none, Bool.false_eq_true, false_iff]
    exact fun hreads => halpha hreads.1

theorem one_le_of_b85ToBin {cnt s x : ℕ} {w : Word} (h : b85ToBin cnt m s = some (x, w)) :
    1 ≤ x := by
  rw [b85ToBin] at h
  split at h
  · cases h
  · obtain ⟨n, -, hn⟩ := Option.bind_eq_some_iff.1 h
    cases hn
    omega

theorem readsGroup_nil : ReadsGroup [] := ⟨by simp, by simp, fun h => by cases h.1⟩

/-- The groups after the first are those of the rest. -/
theorem b85Group_succ (pos size j : ℕ) :
    b85Group (block m pos size) (j + 1) =
      b85Group (block m (pos + min 5 size) (size - min 5 size)) j := by
  rw [b85Group, b85Group, ← block_drop, List.drop_drop]
  rcases le_total 5 size with h | h
  · rw [min_eq_left h, show 5 * (j + 1) = 5 + 5 * j by omega]
  · rw [List.drop_eq_nil_of_le, List.drop_eq_nil_of_le]
    · rw [block_length, min_eq_right h]
      omega
    · rw [block_length]
      omega

/-- **Which strings are decoded**: those all groups of which are read. -/
theorem base85ToBinaryFrom_ne_zero (rounds : ℕ) : ∀ (pTo pos size cnt : ℕ), size ≤ rounds →
    ((base85ToBinaryFrom m rounds pTo pos size cnt).1 ≠ 0 ↔
      0 < cnt + size ∧ ∀ j, ReadsGroup (b85Group (block m pos size) j)) := by
  have hempty : ∀ pos j, ReadsGroup (b85Group (block m pos 0) j) := by
    intro pos j
    have hnil : b85Group (block m pos 0) j = [] := by simp [b85Group, block]
    rw [hnil]
    exact readsGroup_nil
  induction rounds with
  | zero =>
    intro pTo pos size cnt hsize
    obtain rfl : size = 0 := by omega
    simp [base85ToBinaryFrom, hempty, Nat.pos_iff_ne_zero]
  | succ rounds ih =>
    intro pTo pos size cnt hrounds
    rw [base85ToBinaryFrom]
    by_cases hsize : size > 0
    · have hsz : (if size > 5 then 5 else size) = min 5 size := by
        split <;> omega
      have hfirst : b85Group (block m pos size) 0 = block m pos (min 5 size) := by
        rw [b85Group, Nat.mul_zero, List.drop_zero, block_take]
      have hsome := isSome_b85ToBin (m := m) (show 1 ≤ min 5 size by omega)
        (show min 5 size ≤ 5 by omega) pos
      rw [if_pos hsize, hsz]
      cases hb : b85ToBin (min 5 size) m pos with
      | none =>
        -- the first group is not read
        have hnot : ¬ ReadsGroup (block m pos (min 5 size)) := by
          rw [← hsome, hb]
          simp
        simp only [hb, ne_eq, not_true, false_iff, not_and]
        intro _ hall
        exact hnot (hfirst ▸ hall 0)
      | some xw =>
        obtain ⟨x, w⟩ := xw
        have hx := one_le_of_b85ToBin hb
        have hread : ReadsGroup (b85Group (block m pos size) 0) := by
          rw [hfirst, ← hsome, hb]
          rfl
        simp only [hb, ih _ _ _ _ (show size - min 5 size ≤ rounds by omega), ← b85Group_succ]
        constructor
        · rintro ⟨-, hrest⟩
          refine ⟨by omega, fun j => ?_⟩
          cases j with
          | zero => exact hread
          | succ j => exact hrest j
        · rintro ⟨-, hall⟩
          exact ⟨by omega, fun j => hall (j + 1)⟩
    · obtain rfl : size = 0 := by omega
      simp [hempty, Nat.pos_iff_ne_zero]

/-- A character of a string is in a group of it. -/
theorem forall_b85Group {s : List Byte} {P : Byte → Prop} :
    (∀ j, ∀ c ∈ b85Group s j, P c) ↔ ∀ c ∈ s, P c := by
  constructor
  · intro h c hc
    obtain ⟨i, hi, rfl⟩ := List.getElem_of_mem hc
    refine h (i / 5) _ (List.mem_iff_getElem.2 ⟨i % 5, ?_, ?_⟩)
    · rw [b85Group, List.length_take, List.length_drop]
      omega
    · simp only [b85Group, List.getElem_take, List.getElem_drop, Nat.div_add_mod]
  · intro h j c hc
    exact h c (List.mem_of_mem_drop (List.mem_of_mem_take hc))

/-- **The decoder rejects what is not an encoding just when** no group is too
large, or something else is wrong, or a full group is too large in the range
that is seen. -/
theorem base85ToBinary_rejects_iff (m : ℕ → Byte) (size : ℕ) :
    let s := block m 0 size
    let ret := (base85ToBinary m size).1
    ((ret ≠ 0 → Encodes s) ∧ (¬ Encodes s → ret = 0)) ↔
      (∀ j, b85Value (b85Group s j) * 85 ^ (5 - (b85Group s j).length) < 2 ^ 32) ∨
      (∃ c ∈ s, c ∉ map1) ∨ (∃ j, (b85Group s j).length = 1) ∨ ∃ j, Detected (b85Group s j) := by
  intro s ret
  have hret : ret ≠ 0 ↔ 0 < size ∧ ∀ j, ReadsGroup (b85Group s j) := by
    have := base85ToBinaryFrom_ne_zero (m := m) size 0 0 size 0 le_rfl
    rwa [Nat.zero_add] at this
  have hreads : (∀ j, ReadsGroup (b85Group s j)) ↔ (∀ c ∈ s, c ∈ map1) ∧
      (∀ j, (b85Group s j).length ≠ 1) ∧ ∀ j, ¬ Detected (b85Group s j) := by
    rw [← forall_b85Group (P := (· ∈ map1))]
    simp only [ReadsGroup, forall_and]
  constructor
  · rintro ⟨h, -⟩
    by_contra hcon
    push Not at hcon
    obtain ⟨⟨j, hj⟩, halpha, hsingle, hseen⟩ := hcon
    have hpos : 0 < size := by
      by_contra hzero
      obtain rfl : size = 0 := by omega
      simp [s, b85Group, block, b85Value] at hj
    exact absurd ((h (hret.2 ⟨hpos, hreads.2 ⟨halpha, hsingle, hseen⟩⟩)).fits j) (not_lt.2 hj)
  · intro h
    have himp : ret ≠ 0 → Encodes s := by
      intro hne
      obtain ⟨halpha, hsingle, hseen⟩ := hreads.1 (hret.1 hne).2
      rcases h with hfits | ⟨c, hc, hbad⟩ | ⟨j, hj⟩ | ⟨j, hj⟩
      · exact ⟨halpha, hsingle, hfits⟩
      · exact absurd (halpha c hc) hbad
      · exact absurd hj (hsingle j)
      · exact absurd hj (hseen j)
    exact ⟨himp, fun hnot => by_contra fun hne => hnot (himp hne)⟩

/-- The highest number of five digits is read as a word. -/
theorem base85ToBinary_tildes : (base85ToBinary (fun _ => 0x7e#8) 5).1 = 4 ∧
    ¬ Encodes (block (fun _ => 0x7e#8) 0 5) := by
  refine ⟨by decide +kernel, fun h => ?_⟩
  exact absurd (h.fits 0) (by decide +kernel)

/-! ## The encoder -/

/-- Nothing is stored past the NUL. -/
theorem le_of_mem_binaryToBase85From (pTo pFrom : ℕ) {size : ℕ} (h : 1 ≤ size) :
    ∀ st ∈ (binaryToBase85From m pTo pFrom size).2,
      st.1 ≤ (binaryToBase85From m pTo pFrom size).1 := by
  have hgroup : ∀ (cnt : ℕ) (w : Word) (p : ℕ), ∀ st ∈ (binToB85 cnt w p).2, st.1 ≤ p + 4 := by
    intro cnt w p st hst
    simp only [binToB85, List.mem_cons, List.not_mem_nil, or_false] at hst
    rcases hst with rfl | rfl | rfl | rfl | rfl <;> simp
  fun_induction binaryToBase85From m pTo pFrom size with
  | case1 pTo pFrom size x r ih =>
    intro st hst
    obtain ⟨hret, -⟩ := after_binaryToBase85From (m := m) (pTo + x.1) (pFrom + 4)
      (show 1 ≤ size + 1 by omega)
    rcases List.mem_append.1 hst with hst | hst
    · have hle := hgroup _ _ _ st hst
      have hx : x.1 = 5 := rfl
      have hr : r.1 = pTo + x.1 + (b85Text m (pFrom + 4) (size + 1)).length + 2 := hret
      show st.1 ≤ r.1
      omega
    · exact ih (by omega) st hst
  | case2 pTo pFrom size hsmall sh mask x pTo' =>
    intro st hst
    have hx : x.1 = size + 1 := rfl
    show st.1 ≤ pTo' + 2
    rcases List.mem_append.1 hst with hst | hst
    · have hle := hgroup _ _ _ st hst
      omega
    · simp only [List.mem_cons, List.not_mem_nil, or_false] at hst
      rcases hst with rfl | rfl <;> simp

/-- **The encoder stays inside the size its comment gives just when** the
number of bytes is a multiple of four. -/
theorem binaryToBase85_inside_iff (m : ℕ → Byte) (size : ℕ) :
    (∀ st ∈ (binaryToBase85 m size).2, st.1 < size * 5 / 4 + 4) ↔ size % 4 = 0 := by
  by_cases hsize : size > 0
  · obtain ⟨hret, -⟩ := after_binaryToBase85From (m := m) 1 0 hsize
    have hle := le_of_mem_binaryToBase85From (m := m) 1 0 hsize
    have hroom : size * 5 / 4 = size + size / 4 := by
      rw [show size * 5 = size + size * 4 by omega, Nat.add_mul_div_right _ _ (by decide),
        Nat.add_comm]
    rw [b85Text_length 0 hsize] at hret
    rw [binaryToBase85, if_pos hsize, hroom]
    constructor
    · intro h
      -- the NUL is the last byte of the line
      have hnul := h (_, 0#8) (List.mem_append_right _ (List.mem_singleton_self _))
      simp only [hret] at hnul
      omega
    · intro hmod st hst
      rcases List.mem_append.1 hst with hst | hst
      · rcases List.mem_cons.1 hst with rfl | hst
        · simp
        · have := hle st hst
          omega
      · obtain rfl := List.mem_singleton.1 hst
        simp only [hret]
        omega
  · obtain rfl : size = 0 := by omega
    simp [binaryToBase85]

/-- One byte takes six, and the comment has room for five. -/
theorem binaryToBase85_one : (5, 0#8) ∈ (binaryToBase85 (fun _ => 0x41#8) 1).2 ∧
    ¬ ∀ st ∈ (binaryToBase85 (fun _ => 0x41#8) 1).2, st.1 < 1 * 5 / 4 + 4 := by
  decide +kernel

end App

end AntTracer
