import AntTracer.Misc.Base85

/-!
# The base-85 coding, there and back

What `BinaryToBase85` leaves in memory is a line with the text of its bytes
(`after_binaryToBase85`), and reading that text gives the bytes again, group
by group (`base85ToBinaryFrom_text`).
-/

namespace AntTracer

namespace App

open Stores
open AntTracer.Types (oqGet32Big oqGet32Big_eq oqPut32Big oqPut32Big_eq)

/-! ## The characters of a word -/

/-- The five characters of a word. -/
def b85Chars (w : Word) : List Byte :=
  [4, 3, 2, 1, 0].map fun i => map1.getD (w.toNat / 85 ^ i % 85) 0#8

theorem map1_getD : ∀ d < 85, map1.getD d 0#8 ∈ map1 ∧ b85Digit (map1.getD d 0#8) = d := by
  decide +kernel

@[simp] theorem b85Chars_length (w : Word) : (b85Chars w).length = 5 := rfl

theorem mem_map1_of_mem_b85Chars {w : Word} {c : Byte} (h : c ∈ b85Chars w) : c ∈ map1 := by
  obtain ⟨i, -, rfl⟩ := List.mem_map.1 h
  exact (map1_getD _ (Nat.mod_lt _ (by decide))).1

/-- The leading characters denote the leading digits. -/
theorem b85Value_take {k : ℕ} (hk : k ≤ 5) (w : Word) :
    b85Value ((b85Chars w).take k) = w.toNat / 85 ^ (5 - k) := by
  induction k with
  | zero => exact (Nat.div_eq_of_lt (w.isLt.trans (by decide))).symm
  | succ k ih =>
    have htake : (b85Chars w).take (k + 1) =
        (b85Chars w).take k ++ [map1.getD (w.toNat / 85 ^ (4 - k) % 85) 0#8] := by
      obtain rfl | rfl | rfl | rfl | rfl : k = 0 ∨ k = 1 ∨ k = 2 ∨ k = 3 ∨ k = 4 := by omega
      all_goals rfl
    rw [htake, b85Value_concat, ih (by omega), (map1_getD _ (Nat.mod_lt _ (by decide))).2,
      show 5 - k = 4 - k + 1 by omega, pow_succ, ← Nat.div_div_eq_div_mul, Nat.div_add_mod,
      show 5 - (k + 1) = 4 - k by omega]

/-- `bin_to_b85` stores the characters of its word. -/
theorem after_binToB85 (old : ℕ → Byte) (cnt : ℕ) (w : Word) (s : ℕ) :
    after old (binToB85 cnt w s).2 = place old s (b85Chars w) := by
  have hdiv : ∀ i, (w.toNat / 85 ^ i) / 85 = w.toNat / 85 ^ (i + 1) := by
    intro i
    rw [Nat.div_div_eq_div_mul, pow_succ]
  have hbefore : ∀ (m : ℕ → Byte) (i : ℕ) (v : Byte) (l : List Byte),
      place (place m (i + 1) l) i [v] = place m i (v :: l) := by
    intro m i v l
    exact place_before (l := [v])
  have hdigits : (binToB85 cnt w s).2 = [(s + 4, map1.getD (w.toNat / 85 ^ 0 % 85) 0#8),
      (s + 3, map1.getD (w.toNat / 85 ^ 1 % 85) 0#8),
      (s + 2, map1.getD (w.toNat / 85 ^ 2 % 85) 0#8),
      (s + 1, map1.getD (w.toNat / 85 ^ 3 % 85) 0#8),
      (s, map1.getD (w.toNat / 85 ^ 4 % 85) 0#8)] := by
    simp only [← hdiv, pow_zero, Nat.div_one]
    rfl
  rw [hdigits]
  simp only [after_cons, after_nil, update_eq_place, hbefore]
  rfl

/-- **A group is read back**: the leading characters of a word whose low bytes
are zero give that word. -/
theorem b85ToBin_take {k : ℕ} (hk : 1 ≤ k) (hk' : k ≤ 4) {w : Word}
    (hw : 2 ^ (8 * (4 - k)) ∣ w.toNat) {m : ℕ → Byte} {s : ℕ}
    (hread : block m s (k + 1) = (b85Chars w).take (k + 1)) :
    b85ToBin (k + 1) m s = some (k, w) := by
  have halpha : ∀ c ∈ block m s (k + 1), c ∈ map1 := by
    intro c hc
    rw [hread] at hc
    exact mem_map1_of_mem_b85Chars (List.mem_of_mem_take hc)
  have hfit : ∀ i < (block m s (k + 1)).length,
      85 * b85Value ((block m s (k + 1)).take i) < 2 ^ 32 := by
    intro i hi
    rw [block_length] at hi
    -- all digits before the last: what they denote times the base is no more than the word
    rw [hread, List.take_take, min_eq_left (by omega), b85Value_take (by omega)]
    have hle : 85 ^ 1 ≤ 85 ^ (5 - i) := Nat.pow_le_pow_right (by decide) (by omega)
    have h₁ : w.toNat / 85 ^ (5 - i) ≤ w.toNat / 85 ^ 1 := Nat.div_le_div_left hle (by decide)
    have h₂ := w.isLt
    omega
  rw [b85ToBin_eq (by omega) (by omega), foldlM_b85Step halpha hfit, hread,
    b85Value_take (by omega), Option.map_some, show 5 - (k + 1) = 4 - k by omega,
    roundWord_div (by omega) hw]
  rfl

/-! ## The bytes of a word -/

/-- The word at an address, with all but its first `size` bytes masked away. -/
def headWord (m : ℕ → Byte) (buf size : ℕ) : Word :=
  oqGet32Big m buf &&& -(1#32 <<< ((4 - size) * 8))

theorem headWord_four (m : ℕ → Byte) (buf : ℕ) : headWord m buf 4 = oqGet32Big m buf := by
  rw [headWord, show (-(1#32 <<< ((4 - 4) * 8))) = BitVec.allOnes 32 by decide,
    BitVec.and_allOnes]

theorem dvd_headWord {m : ℕ → Byte} {buf size : ℕ} (h : 1 ≤ size) :
    2 ^ (8 * (4 - size)) ∣ (headWord m buf size).toNat := by
  rw [headWord, Nat.mul_comm, toNat_and_highBits _ (by omega)]
  exact Nat.dvd_mul_left ..

/-- What `OqGet32Big` reads, byte by byte. -/
theorem oqGet32Big_bytes (m : ℕ → Byte) (buf : ℕ) :
    (oqGet32Big m buf >>> 24).setWidth 8 = m buf ∧
      (oqGet32Big m buf >>> 16).setWidth 8 = m (buf + 1) ∧
      (oqGet32Big m buf >>> 8).setWidth 8 = m (buf + 2) ∧
      (oqGet32Big m buf).setWidth 8 = m (buf + 3) := by
  refine ⟨?_, ?_, ?_, ?_⟩ <;> ext i hi <;>
    simp only [oqGet32Big_eq, BitVec.getElem_setWidth, BitVec.getLsbD_ushiftRight,
      BitVec.getLsbD_append]
  · rw [if_neg (by omega), if_neg (by omega), if_neg (by omega),
      show 24 + i - 8 - 8 - 8 = i by omega, BitVec.getLsbD_eq_getElem hi]
  · rw [if_neg (by omega), if_neg (by omega), if_pos (by omega),
      show 16 + i - 8 - 8 = i by omega, BitVec.getLsbD_eq_getElem hi]
  · rw [if_neg (by omega), if_pos (by omega), show 8 + i - 8 = i by omega,
      BitVec.getLsbD_eq_getElem hi]
  · rw [if_pos (by omega), BitVec.getLsbD_eq_getElem hi]

/-- The bytes of a word under a mask. -/
theorem after_oqPut32Big_and (old m : ℕ → Byte) (pTo buf : ℕ) (mask : Word) :
    after old (oqPut32Big pTo (oqGet32Big m buf &&& mask)) =
      place old pTo [m buf &&& (mask >>> 24).setWidth 8, m (buf + 1) &&& (mask >>> 16).setWidth 8,
        m (buf + 2) &&& (mask >>> 8).setWidth 8, m (buf + 3) &&& mask.setWidth 8] := by
  obtain ⟨h₀, h₁, h₂, h₃⟩ := oqGet32Big_bytes m buf
  rw [← after_stretch, oqPut32Big_eq]
  simp only [BitVec.ushiftRight_and_distrib, BitVec.setWidth_and, h₀, h₁, h₂, h₃]
  rfl

/-- **What comes back of a word** with its low bytes masked away: its first
bytes, and zeros. -/
theorem after_oqPut32Big_headWord (old m : ℕ → Byte) (pTo buf : ℕ) {size : ℕ} (h : 1 ≤ size)
    (h' : size ≤ 4) : after old (oqPut32Big pTo (headWord m buf size)) =
      place old pTo (block m buf size ++ List.replicate (4 - size) 0#8) := by
  have hone : ∀ b : Byte, b &&& 255#8 = b := fun b => BitVec.and_allOnes
  have hzero : ∀ b : Byte, b &&& 0#8 = 0#8 := fun b => BitVec.and_zero
  have hmask : ∀ s < 5, 1 ≤ s → let mask : Word := -(1#32 <<< ((4 - s) * 8))
      (mask >>> 24).setWidth 8 = 255#8 ∧
        (mask >>> 16).setWidth 8 = (if 2 ≤ s then 255#8 else 0#8) ∧
        (mask >>> 8).setWidth 8 = (if 3 ≤ s then 255#8 else 0#8) ∧
        mask.setWidth 8 = if 4 ≤ s then 255#8 else 0#8 := by decide
  obtain ⟨h₀, h₁, h₂, h₃⟩ := hmask size (by omega) h
  rw [headWord, after_oqPut32Big_and, h₀, h₁, h₂, h₃]
  obtain rfl | rfl | rfl | rfl : size = 1 ∨ size = 2 ∨ size = 3 ∨ size = 4 := by omega
  all_goals
    simp only [hone, hzero, block_succ, Nat.reduceLeDiff, if_true, if_false]
    rfl

/-! ## The text -/

/-- The characters of `size` bytes. -/
def b85Text (m : ℕ → Byte) : ℕ → ℕ → List Byte
  | pFrom, size + 5 => b85Chars (oqGet32Big m pFrom) ++ b85Text m (pFrom + 4) (size + 1)
  | pFrom, size => (b85Chars (headWord m pFrom size)).take (size + 1)

variable {m : ℕ → Byte}

/-- What is no bulk is a rest. -/
theorem rest_le_four {size : ℕ} (h : ∀ n, size = n + 5 → False) : size ≤ 4 := by
  by_contra hlt
  exact h (size - 5) (by omega)

theorem b85Text_rest {size : ℕ} (h : size ≤ 4) (pFrom : ℕ) :
    b85Text m pFrom size = (b85Chars (headWord m pFrom size)).take (size + 1) := by
  rw [b85Text]
  rintro n rfl
  omega

theorem b85Text_length (pFrom : ℕ) {size : ℕ} (h : 1 ≤ size) :
    (b85Text m pFrom size).length = size + (size + 3) / 4 := by
  fun_induction b85Text m pFrom size with
  | case1 pFrom size ih =>
    rw [List.length_append, ih (by omega), b85Chars_length]
    omega
  | case2 pFrom size hsmall =>
    have hle := rest_le_four hsmall
    rw [List.length_take, b85Chars_length]
    omega

/-- **What the encoder leaves**: the text and a line end. -/
theorem after_binaryToBase85From (pTo pFrom : ℕ) {size : ℕ} (h : 1 ≤ size) :
    (binaryToBase85From m pTo pFrom size).1 = pTo + (b85Text m pFrom size).length + 2 ∧
      ∀ old, after old ((binaryToBase85From m pTo pFrom size).2 ++
          [((binaryToBase85From m pTo pFrom size).1, 0#8)]) =
        place old pTo (b85Text m pFrom size ++ [0x0d#8, 0x0a#8, 0#8]) := by
  fun_induction binaryToBase85From m pTo pFrom size with
  | case1 pTo pFrom size x r ih =>
    obtain ⟨hret, hafter⟩ := ih (by omega)
    refine ⟨?_, fun old => ?_⟩
    · rw [b85Text, List.length_append, hret, b85Chars_length, show x.1 = 5 from rfl]
      omega
    · rw [List.append_assoc, after_append, hafter, after_binToB85, b85Text, List.append_assoc]
      exact place_append _ _ _ _
  | case2 pTo pFrom size hsmall sh mask x pTo' =>
    have hle := rest_le_four hsmall
    rw [b85Text_rest hle]
    refine ⟨?_, fun old => ?_⟩
    · rw [List.length_take, b85Chars_length, min_eq_left (by omega)]
      rfl
    · -- the characters stored past the text are under the line end
      have hend : [(pTo', 0x0d#8), (pTo' + 1, 0x0a#8)] ++ [(pTo' + 2, 0#8)] =
          stretch pTo' [0x0d#8, 0x0a#8, 0#8] := rfl
      have hx : x.1 = size + 1 := rfl
      rw [List.append_assoc, hend, after_append, after_stretch, after_binToB85]
      exact place_over (by rw [b85Chars_length]; omega)
        (by simp only [b85Chars_length, List.length_cons, List.length_nil]; omega)

theorem after_binaryToBase85 {size : ℕ} (h : 0 < size) :
    (binaryToBase85 m size).1 = (b85Text m 0 size).length + 3 ∧
      ∀ old, after old (binaryToBase85 m size).2 =
        place old 0 (0x5f#8 :: (b85Text m 0 size ++ [0x0d#8, 0x0a#8, 0#8])) := by
  obtain ⟨hret, hafter⟩ := after_binaryToBase85From (m := m) 1 0 h
  rw [binaryToBase85, if_pos h]
  refine ⟨?_, fun old => ?_⟩
  · show (binaryToBase85From m 1 0 size).1 = _
    rw [hret]
    omega
  · show after old ((0, 0x5f#8) :: (binaryToBase85From m 1 0 size).2 ++ _) = _
    rw [List.cons_append, after_cons, hafter]
    exact place_update _

/-- A round that reads a group. -/
theorem base85ToBinaryFrom_succ {mem : ℕ → Byte} {rounds pTo pos size cnt x : ℕ} {w : Word}
    (hsize : 0 < size) (h : b85ToBin (if size > 5 then 5 else size) mem pos = some (x, w)) :
    base85ToBinaryFrom mem (rounds + 1) pTo pos size cnt =
      let sz := if size > 5 then 5 else size
      let r := base85ToBinaryFrom mem rounds (pTo + 4) (pos + sz) (size - sz) (cnt + x)
      (r.1, oqPut32Big pTo w ++ r.2) := by
  simp only [base85ToBinaryFrom, gt_iff_lt, hsize, if_true, h]

/-- **What the decoder makes of the text.** -/
theorem base85ToBinaryFrom_text {mem : ℕ → Byte} (pFrom : ℕ) {size : ℕ} (h : 1 ≤ size) :
    ∀ (rounds pTo pos cnt : ℕ), (b85Text m pFrom size).length ≤ rounds →
    block mem pos (b85Text m pFrom size).length = b85Text m pFrom size →
    (base85ToBinaryFrom mem rounds pTo pos (b85Text m pFrom size).length cnt).1 = cnt + size ∧
      ∀ old, after old
          (base85ToBinaryFrom mem rounds pTo pos (b85Text m pFrom size).length cnt).2 =
        place old pTo (block m pFrom size ++ List.replicate ((size + 3) / 4 * 4 - size) 0#8) := by
  fun_induction b85Text m pFrom size with
  | case1 pFrom size ih =>
    intro rounds pTo pos cnt hrounds hread
    have hlen := b85Text_length (m := m) (pFrom + 4) (show 1 ≤ size + 1 by omega)
    rw [List.length_append, b85Chars_length] at hrounds hread ⊢
    obtain ⟨rounds, rfl⟩ : ∃ r, rounds = r + 1 := ⟨rounds - 1, by omega⟩
    rw [block_add] at hread
    obtain ⟨hgroup, hrest⟩ := List.append_inj hread (by rw [block_length, b85Chars_length])
    have hbin : b85ToBin (4 + 1) mem pos = some (4, oqGet32Big m pFrom) :=
      b85ToBin_take (by decide) (by decide) (Nat.one_dvd _) hgroup
    obtain ⟨hret, hafter⟩ := ih (by omega) rounds (pTo + 4) (pos + 5) (cnt + 4) (by omega) hrest
    rw [base85ToBinaryFrom_succ (by omega) (by rw [if_pos (by omega)]; exact hbin)]
    simp only [if_pos (show 5 + (b85Text m (pFrom + 4) (size + 1)).length > 5 by omega),
      Nat.add_sub_cancel_left]
    refine ⟨by rw [hret]; omega, fun old => ?_⟩
    have hword := after_oqPut32Big_headWord old m pTo pFrom (show 1 ≤ 4 by decide) le_rfl
    rw [headWord_four, Nat.sub_self, List.replicate_zero, List.append_nil] at hword
    have hjoin := place_append old pTo (block m pFrom 4) (block m (pFrom + 4) (size + 1) ++
      List.replicate ((size + 1 + 3) / 4 * 4 - (size + 1)) 0#8)
    rw [block_length] at hjoin
    rw [after_append, hword, hafter, hjoin, ← List.append_assoc, ← block_add,
      show 4 + (size + 1) = size + 5 by omega,
      show (size + 1 + 3) / 4 * 4 - (size + 1) = (size + 5 + 3) / 4 * 4 - (size + 5) by omega]
  | case2 pFrom size hsmall =>
    intro rounds pTo pos cnt hrounds hread
    have hle := rest_le_four hsmall
    rw [List.length_take, b85Chars_length, min_eq_left (by omega)] at hrounds hread ⊢
    obtain ⟨rounds, rfl⟩ : ∃ r, rounds = r + 1 := ⟨rounds - 1, by omega⟩
    have hdvd : 2 ^ (8 * (4 - size)) ∣ (headWord m pFrom size).toNat := dvd_headWord h
    have hbin := b85ToBin_take h hle hdvd hread
    have hdone : ∀ c, base85ToBinaryFrom mem rounds (pTo + 4) (pos + (size + 1)) 0 c = (c, []) := by
      intro c
      cases rounds <;> rfl
    rw [base85ToBinaryFrom_succ (by omega) (by rw [if_neg (by omega)]; exact hbin)]
    simp only [if_neg (show ¬ size + 1 > 5 by omega), Nat.sub_self, hdone]
    refine ⟨trivial, fun old => ?_⟩
    rw [List.append_nil, after_oqPut32Big_headWord old m pTo pFrom h hle,
      show (size + 3) / 4 * 4 - size = 4 - size by omega]

/-- The bytes of a block with a value repeated behind it. -/
theorem place_block_replicate (old : ℕ → Byte) (n k : ℕ) (v : Byte) (i : ℕ) :
    place old 0 (block m 0 n ++ List.replicate k v) i =
      if i < n then m i else if i < n + k then v else old i := by
  have hlen : (block m 0 n ++ List.replicate k v).length = n + k := by
    rw [List.length_append, block_length, List.length_replicate]
  split_ifs with h₁ h₂
  · rw [place_zero (by omega), List.getElem_append_left (by rw [block_length]; exact h₁),
      getElem_block, Nat.zero_add]
  · rw [place_zero (by omega), List.getElem_append_right (by rw [block_length]; omega),
      List.getElem_replicate]
  · exact place_of_ge (by omega)

/-- **There and back.** The output of the encoder is a `_`, a text and a line
end; the text gives as many bytes as went in, the same ones, and then zeros up
to a multiple of four. -/
theorem base85_round_trip (m old old' : ℕ → Byte) (size : ℕ) (h : 0 < size) :
    let r := binaryToBase85 m size
    let out := after old r.2
    let q := base85ToBinary (fun i => out (1 + i)) (r.1 - 3)
    3 ≤ r.1 ∧ out 0 = 0x5f#8 ∧ out (r.1 - 2) = 0x0d#8 ∧ out (r.1 - 1) = 0x0a#8 ∧
      out r.1 = 0#8 ∧ q.1 = size ∧
      ∀ i, after old' q.2 i =
        if i < size then m i else if i < (size + 3) / 4 * 4 then 0#8 else old' i := by
  intro r out q
  obtain ⟨hret, hafter⟩ := after_binaryToBase85 (m := m) h
  set L := (b85Text m 0 size).length with hL
  set whole := 0x5f#8 :: (b85Text m 0 size ++ [0x0d#8, 0x0a#8, 0#8]) with hwhole
  have hr : r.1 = L + 3 := hret
  have hout : out = place old 0 whole := hafter old
  have hlen : whole.length = L + 4 := by simp [hwhole, hL]
  have hat : ∀ i (hi : i < whole.length), out i = whole[i] := by
    intro i hi
    rw [hout, place_zero hi]
  have htail : ∀ k (hk : k < 3), out (L + 1 + k) = [0x0d#8, 0x0a#8, 0#8][k] := by
    intro k hk
    rw [hat _ (by omega)]
    simp only [hwhole, show L + 1 + k = L + k + 1 by omega, List.getElem_cons_succ]
    rw [List.getElem_append_right (by omega)]
    simp only [← hL, Nat.add_sub_cancel_left]
  have hread : block (fun i => out (1 + i)) 0 L = b85Text m 0 size := by
    have hplace := block_place (m := old) (a := 0) (l := whole) (k := 1) (n := L) (by omega)
    rw [← hout] at hplace
    calc block (fun i => out (1 + i)) 0 L = block out (0 + 1) L := block_shift out 1 L
      _ = (whole.drop 1).take L := hplace
      _ = b85Text m 0 size := by
        rw [hwhole, List.drop_succ_cons, List.drop_zero, List.take_left' hL]
  obtain ⟨hcount, hback⟩ := base85ToBinaryFrom_text 0 h L 0 0 0 le_rfl hread
  have hq : q = base85ToBinaryFrom (fun i => out (1 + i)) L 0 0 L 0 := by
    show base85ToBinary (fun i => out (1 + i)) (r.1 - 3) = _
    rw [hr, Nat.add_sub_cancel]
    rfl
  refine ⟨by omega, hat 0 (by omega), ?_, ?_, ?_, ?_, fun i => ?_⟩
  · rw [hr]
    exact htail 0 (by decide)
  · rw [hr]
    exact htail 1 (by decide)
  · rw [hr]
    exact htail 2 (by decide)
  · rw [hq, hcount, Nat.zero_add]
  · rw [hq, hback, place_block_replicate]
    have hpad : size + ((size + 3) / 4 * 4 - size) = (size + 3) / 4 * 4 := by omega
    rw [hpad]

/-- The same for five bytes. -/
theorem base85_round_trip_five :
    let m : ℕ → Byte := fun i => BitVec.ofNat 8 (0x41 + i)
    let r := binaryToBase85 m 5
    let q := base85ToBinary (fun i => after m r.2 (1 + i)) (r.1 - 3)
    r.1 = 10 ∧ q.1 = 5 ∧
      ∀ i, after m q.2 i = if i < 5 then m i else if i < 8 then 0#8 else m i := by
  intro m r q
  obtain ⟨-, -, -, -, -, hcount, hback⟩ := base85_round_trip m m m 5 (by decide)
  exact ⟨rfl, hcount, hback⟩

end App

end AntTracer
