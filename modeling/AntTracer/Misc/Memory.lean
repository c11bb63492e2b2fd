import AntTracer.Loader.Map
import AntTracer.Misc.ByteOrder

/-!
# Copying and filling memory

`memcpy` and `memset` of the library. Both take words for as long as the
pointers are on word boundaries, and the rest byte by byte. Nothing is seen of
that in what they leave in memory: `memset_fills` for any address and length.
`memcpy` goes upwards, so it also moves memory down; `memcpy_moves_iff` says
where it does not do as a `memmove` would.
-/

namespace AntTracer

namespace Libc

open Stores Bytes AntTracer.Types

/-! ## The program -/

/-- The loop over words of `memcpy`, with the pointers after it and what is
left. -/
def copyWords (m : ℕ → Byte) (d s : ℕ) (cnt : ℕ) : (ℕ → Byte) × ℕ × ℕ × ℕ :=
  match cnt with
  | cnt + 4 => copyWords (after m (oqPut32 d (load32 m s))) (d + 4) (s + 4) cnt
  | cnt => (m, d, s, cnt)

/-- Its loop over bytes. -/
def copyBytes (m : ℕ → Byte) (d s : ℕ) (cnt : ℕ) : ℕ → Byte :=
  match cnt with
  | 0 => m
  | cnt + 1 => copyBytes (Function.update m d (m s)) (d + 1) (s + 1) cnt

/-- `memcpy`: the memory after it, and what it returns. -/
def memcpy (m : ℕ → Byte) (dest src cnt : ℕ) : (ℕ → Byte) × ℕ :=
  if dest % 4 = 0 ∧ src % 4 = 0 then
    let r := copyWords m dest src cnt
    (copyBytes r.1 r.2.1 r.2.2.1 r.2.2.2, dest)
  else (copyBytes m dest src cnt, dest)

/-- The loop over words of `memset`, with the pointer after it and what is
left. -/
def fillWords (v : Word) (m : ℕ → Byte) (d : ℕ) (sz : ℕ) : (ℕ → Byte) × ℕ × ℕ :=
  match sz with
  | sz + 4 => fillWords v (after m (oqPut32 d v)) (d + 4) sz
  | sz => (m, d, sz)

/-- Its loop over bytes. -/
def fillBytes (v : Word) (m : ℕ → Byte) (d : ℕ) (sz : ℕ) : ℕ → Byte :=
  match sz with
  | 0 => m
  | sz + 1 => fillBytes v (Function.update m d (v.setWidth 8)) (d + 1) sz

/-- `memset`: the memory after it, and what it returns. -/
def memset (m : ℕ → Byte) (dest : ℕ) (c : Word) (sz : ℕ) : (ℕ → Byte) × ℕ :=
  let c := c &&& 0xff#32
  let v := c ||| (c <<< 8)
  let v := v ||| (v <<< 16)
  if dest % 4 = 0 then
    let r := fillWords v m dest sz
    (fillBytes v r.1 r.2.1 r.2.2, dest)
  else (fillBytes v m dest sz, dest)

/-! ## Copying -/

/-- Where the byte comes from that gets to `dest + i`: what was copied before
may be copied again. -/
def origin (dest src i : ℕ) : ℕ := if src < dest then src + i % (dest - src) else src + i

/-- The first `j` bytes copied. -/
def copies (m : ℕ → Byte) (dest src j : ℕ) : List Byte :=
  (List.range j).map fun i => m (origin dest src i)

section Copy

variable {m : ℕ → Byte} {dest src cnt i j n : ℕ}

@[simp] theorem length_copies : (copies m dest src j).length = j := by
  rw [copies, List.length_map, List.length_range]

theorem getElem_copies (h : i < (copies m dest src j).length) :
    (copies m dest src j)[i] = m (origin dest src i) := by
  simp [copies]

/-- **What is read next**, of no more bytes than the addresses are apart. -/
theorem copies_block (h : src < dest → n ≤ dest - src) :
    copies m dest src j ++ block (place m dest (copies m dest src j)) (src + j) n =
      copies m dest src (j + n) := by
  refine List.ext_getElem (by simp) fun i h₁ h₂ => ?_
  rw [length_copies] at h₂
  rw [getElem_copies]
  by_cases hi : i < j
  · rw [List.getElem_append_left (by rwa [length_copies]), getElem_copies]
  · rw [List.getElem_append_right (by rw [length_copies]; omega), getElem_block, length_copies,
      show src + j + (i - j) = src + i by omega, origin]
    split
    · rename_i hlt
      by_cases hk : i < dest - src
      · rw [place_of_lt (by omega), Nat.mod_eq_of_lt hk]
      · -- the byte has been copied before
        have hn := h hlt
        rw [show src + i = dest + (i - (dest - src)) by omega,
          place_add (by rw [length_copies]; omega), getElem_copies, origin, if_pos hlt,
          Nat.mod_eq_sub_mod (Nat.le_of_not_lt hk)]
    · rw [place_of_ge (by rw [length_copies]; omega)]

theorem copyWords_eq (m : ℕ → Byte) (dest src : ℕ) (h : src < dest → 4 ≤ dest - src) : ∀ cnt j,
    copyWords (place m dest (copies m dest src j)) (dest + j) (src + j) cnt =
      (place m dest (copies m dest src (j + cnt / 4 * 4)), dest + (j + cnt / 4 * 4),
        src + (j + cnt / 4 * 4), cnt % 4) := by
  intro cnt
  induction cnt using Nat.strong_induction_on with
  | _ cnt ih =>
    intro j
    match cnt with
    | 0 | 1 | 2 | 3 => simp [copyWords]
    | cnt + 4 =>
      have hplace := place_append m dest (copies m dest src j)
        (block (place m dest (copies m dest src j)) (src + j) 4)
      rw [length_copies, copies_block h] at hplace
      rw [copyWords, oqPut32, after_stretch, bytesOf_load32, hplace, Nat.add_assoc, Nat.add_assoc,
        ih cnt (by omega) (j + 4), show j + 4 + cnt / 4 * 4 = j + (cnt + 4) / 4 * 4 by omega,
        show (cnt + 4) % 4 = cnt % 4 by omega]

theorem copyBytes_eq (m : ℕ → Byte) (dest src : ℕ) : ∀ cnt j,
    copyBytes (place m dest (copies m dest src j)) (dest + j) (src + j) cnt =
      place m dest (copies m dest src (j + cnt)) := by
  intro cnt
  induction cnt with
  | zero => exact fun _ => rfl
  | succ cnt ih =>
    intro j
    have hplace := place_append m dest (copies m dest src j)
      (block (place m dest (copies m dest src j)) (src + j) 1)
    rw [length_copies, copies_block fun h => by omega] at hplace
    rw [copyBytes, update_eq_place]
    change copyBytes (place _ _ (block (place m dest (copies m dest src j)) (src + j) 1)) _ _ _ = _
    rw [hplace, Nat.add_assoc, Nat.add_assoc, ih, Nat.add_right_comm, Nat.add_assoc]

/-- **What `memcpy` copies**, wherever the two blocks are. -/
theorem memcpy_eq (m : ℕ → Byte) (dest src cnt : ℕ) :
    memcpy m dest src cnt = (place m dest (copies m dest src cnt), dest) := by
  have hstart : place m dest (copies m dest src 0) = m := place_nil
  rw [memcpy]
  split
  · -- two word addresses that differ are a word apart
    rename_i halign
    have hwords := copyWords_eq m dest src (by omega) cnt 0
    have hbytes := copyBytes_eq m dest src (cnt % 4) (cnt / 4 * 4)
    rw [hstart, Nat.add_zero, Nat.add_zero, Nat.zero_add] at hwords
    rw [hwords]
    dsimp only
    rw [hbytes, Nat.div_add_mod' cnt 4]
  · have hbytes := copyBytes_eq m dest src cnt 0
    rw [hstart, Nat.add_zero, Nat.add_zero, Nat.zero_add] at hbytes
    rw [hbytes]

/-- Where nothing is copied twice, the copy is the block. -/
theorem copies_eq_block (h : dest ≤ src ∨ src + cnt ≤ dest) :
    copies m dest src cnt = block m src cnt := by
  refine List.ext_getElem (by simp) fun i h₁ h₂ => ?_
  rw [getElem_copies, getElem_block, origin]
  rw [length_copies] at h₁
  split
  · rw [Nat.mod_eq_of_lt (by omega)]
  · rfl

end Copy

/-- **`memcpy` moves memory** as it was, whatever that is, unless the
destination starts inside the source, behind its first byte. -/
theorem memcpy_moves_iff (dest src cnt : ℕ) :
    (∀ m, memcpy m dest src cnt = (place m dest (block m src cnt), dest)) ↔
      dest ≤ src ∨ src + cnt ≤ dest := by
  constructor
  · intro h
    by_contra hinside
    -- the byte at the destination is lost to the first one of the source
    have hagain : origin dest src (dest - src) = src := by
      rw [origin, if_pos (by omega), Nat.mod_self, Nat.add_zero]
    have hmem := congrFun (congrArg Prod.fst (h fun a => if a = src then 1#8 else 0#8))
      (dest + (dest - src))
    rw [memcpy_eq] at hmem
    dsimp only at hmem
    rw [place_add (by rw [length_copies]; omega), place_add (by rw [block_length]; omega),
      getElem_copies, getElem_block, hagain, if_pos rfl, if_neg (by omega)] at hmem
    exact absurd hmem (by decide)
  · intro h m
    rw [memcpy_eq, copies_eq_block h]

/-! ## Filling -/

section Fill

variable {m : ℕ → Byte} {v : Word} {b : Byte} {d j sz : ℕ}

theorem fillWords_eq (hv : bytesOf 4 v = List.replicate 4 b) : ∀ sz j,
    fillWords v (place m d (List.replicate j b)) (d + j) sz =
      (place m d (List.replicate (j + sz / 4 * 4) b), d + (j + sz / 4 * 4), sz % 4) := by
  intro sz
  induction sz using Nat.strong_induction_on with
  | _ sz ih =>
    intro j
    match sz with
    | 0 | 1 | 2 | 3 => simp [fillWords]
    | sz + 4 =>
      have hplace := place_append m d (List.replicate j b) (List.replicate 4 b)
      rw [List.length_replicate, List.replicate_append_replicate] at hplace
      rw [fillWords, oqPut32, after_stretch, hv, hplace, Nat.add_assoc, ih sz (by omega) (j + 4),
        show j + 4 + sz / 4 * 4 = j + (sz + 4) / 4 * 4 by omega,
        show (sz + 4) % 4 = sz % 4 by omega]

theorem fillBytes_eq (hv : v.setWidth 8 = b) : ∀ sz j,
    fillBytes v (place m d (List.replicate j b)) (d + j) sz =
      place m d (List.replicate (j + sz) b) := by
  intro sz
  induction sz with
  | zero => exact fun _ => rfl
  | succ sz ih =>
    intro j
    have hplace := place_append m d (List.replicate j b) (List.replicate 1 b)
    rw [List.length_replicate, List.replicate_append_replicate] at hplace
    rw [fillBytes, hv, update_eq_place]
    change fillBytes v (place _ _ (List.replicate 1 b)) _ _ = _
    rw [hplace, Nat.add_assoc, ih, Nat.add_right_comm, Nat.add_assoc]

/-- A block filled with one value. -/
theorem place_replicate : place m d (List.replicate sz b) = Loader.setBytes m d b sz := by
  funext i
  rw [Loader.setBytes]
  split
  · rename_i hin
    obtain ⟨k, rfl⟩ : ∃ k, i = d + k := ⟨i - d, by omega⟩
    rw [place_add (by rw [List.length_replicate]; omega), List.getElem_replicate]
  · rename_i hout
    by_cases hi : i < d
    · exact place_of_lt hi
    · exact place_of_ge (by rw [List.length_replicate]; omega)

end Fill

/-- The word that `memset` stores has the same byte four times. -/
theorem filler : ∀ b : Byte,
    bytesOf 4 ((b.setWidth 32 ||| (b.setWidth 32 <<< 8)) |||
      ((b.setWidth 32 ||| (b.setWidth 32 <<< 8)) <<< 16)) = List.replicate 4 b ∧
    ((b.setWidth 32 ||| (b.setWidth 32 <<< 8)) |||
      ((b.setWidth 32 ||| (b.setWidth 32 <<< 8)) <<< 16)).setWidth 8 = b := by
  decide +kernel

/-- **`memset` fills** the bytes, and no others. -/
theorem memset_fills (m : ℕ → Byte) (dest : ℕ) (c : Word) (sz : ℕ) :
    memset m dest c sz = (Loader.setBytes m dest (c.setWidth 8) sz, dest) := by
  have hc : c &&& 0xff#32 = (c.setWidth 8).setWidth 32 := by
    have hmask : (0xff#32 : Word) = mask 8 := by decide
    apply BitVec.eq_of_toNat_eq
    rw [hmask, toNat_and_mask (by decide), BitVec.toNat_setWidth, BitVec.toNat_setWidth]
    omega
  have hstart : place m dest (List.replicate 0 (c.setWidth 8)) = m := place_nil
  obtain ⟨hword, hbyte⟩ := filler (c.setWidth 8)
  rw [memset, hc]
  dsimp only
  split
  · have hwords := fillWords_eq (m := m) (d := dest) hword sz 0
    have hbytes := fillBytes_eq (m := m) (d := dest) hbyte (sz % 4) (sz / 4 * 4)
    rw [hstart, Nat.add_zero, Nat.zero_add] at hwords
    rw [hwords]
    dsimp only
    rw [hbytes, Nat.div_add_mod' sz 4, place_replicate]
  · have hbytes := fillBytes_eq (m := m) (d := dest) hbyte sz 0
    rw [hstart, Nat.add_zero, Nat.zero_add] at hbytes
    rw [hbytes, place_replicate]

end Libc

end AntTracer
