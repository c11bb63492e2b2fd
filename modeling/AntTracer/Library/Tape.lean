import AntTracer.Library.Frames

/-!
# Frames laid over pages

Frames are written one after the other over pages of a fixed size. A frame
may begin in one page and go on in the next: what goes over is the carry of
the next page. A page that is not full reads as its words and a blank word.
A tape keeps the pages `lo .. hi - 1`, what each holds, and the frames that
begin in it, each with a tag. Reading the pages in order gives back the
frames (`frames_stream`), and the three ways a tape changes are a frame
appended to the newest page, a page turned, and the oldest page dropped.
-/

namespace AntTracer

/-- Pages of frames, `lo` the oldest and `hi` the next one to come. -/
structure Tape (τ α : Type*) where
  lo : ℕ
  hi : ℕ
  /-- the words of a page -/
  cells : ℕ → List α
  /-- the words that went over into a page from the one before -/
  carry : ℕ → List α
  /-- the frames that begin in a page -/
  entries : ℕ → List (τ × List α)

namespace Tape

variable {τ α : Type*}

/-- All frames, in order. -/
def contents (t : Tape τ α) : List (τ × List α) :=
  (List.range' t.lo (t.hi - t.lo)).flatMap t.entries

/-- The words of frames. -/
abbrev words (es : List (τ × List α)) : List α := (es.map Prod.snd).flatten

/-! ## Reading -/

section Reading

variable (start : α → Prop) (blank : α) (cap size : ℕ)

/-- What a page reads as. -/
def pageOf (l : List α) : List α := l ++ if l.length < size then [blank] else []

/-- The pages from `u` on. -/
def stream (cells : ℕ → List α) : ℕ → ℕ → List α
  | _, 0 => []
  | u, n + 1 => pageOf blank size (cells u) ++ stream cells (u + 1) n

/-- The words of a tape are those of its frames. -/
structure Laid (t : Tape τ α) : Prop where
  le : t.lo ≤ t.hi
  /-- a page holds what came over and its own frames, but for what goes over -/
  split : ∀ u, t.lo ≤ u → u < t.hi →
    t.cells u ++ t.carry (u + 1) = t.carry u ++ words (t.entries u)
  length_le : ∀ u, t.lo ≤ u → u < t.hi → (t.cells u).length ≤ size
  /-- only a full page goes over -/
  full : ∀ u, t.lo ≤ u → u < t.hi → t.carry (u + 1) ≠ [] → (t.cells u).length = size
  /-- and what goes over starts no frame -/
  cont : ∀ u, t.lo ≤ u → u ≤ t.hi → ∀ w ∈ t.carry u, ¬ start w
  frame : ∀ u, t.lo ≤ u → u < t.hi → ∀ e ∈ t.entries u, Frames.IsFrame start blank cap e.2
  /-- the newest page does not go over -/
  last : t.carry t.hi = []

/-- The stream without the words that came over into its first page. -/
def body (t : Tape τ α) : ℕ → ℕ → List α
  | _, 0 => []
  | u, n + 1 => words (t.entries u) ++ (if (t.cells u).length < size then [blank] else []) ++
      body t (u + 1) n

variable {start blank cap size}

theorem Laid.stream_eq {t : Tape τ α} (h : t.Laid start blank cap size) (n : ℕ) :
    ∀ u, t.lo ≤ u → u + n = t.hi →
      stream blank size t.cells u n = t.carry u ++ body blank size t u n := by
  induction n with
  | zero =>
    intro u _ hu
    rw [Nat.add_zero] at hu
    simp [stream, body, hu, h.last]
  | succ n ih =>
    intro u hlo hu
    rw [stream, body, ih (u + 1) (by omega) (by omega), pageOf]
    have hsplit := h.split u hlo (by omega)
    by_cases hc : t.carry (u + 1) = []
    · rw [hc, List.append_nil] at hsplit
      rw [hc, hsplit]
      simp
    · -- nothing stands between the page and what goes over
      rw [h.full u hlo (by omega) hc]
      simp only [lt_irrefl, if_false, List.append_nil]
      rw [← List.append_assoc, hsplit, List.append_assoc]

variable [DecidablePred start] [DecidableEq α]

theorem Laid.frames_body (hb : start blank) {t : Tape τ α}
    (h : t.Laid start blank cap size) (n : ℕ) :
    ∀ u p, t.lo ≤ u → u + n = t.hi →
      Frames.frames start blank cap p (body blank size t u n) ++
          (Frames.pend start blank cap p (body blank size t u n)).toList =
        p.toList ++ (List.range' u n).flatMap fun v => (t.entries v).map Prod.snd := by
  induction n with
  | zero => intro u p _ _; simp [body]
  | succ n ih =>
    intro u p hlo hu
    have hfs := Frames.frames_flatten (fun f hf => by
      obtain ⟨e, he, rfl⟩ := List.mem_map.1 hf
      exact h.frame u hlo (by omega) e he) p
    rw [body, List.append_assoc, Frames.frames_append, Frames.pend_append, Frames.frames_append,
      Frames.pend_append, List.range'_succ, List.flatMap_cons]
    generalize Frames.pend start blank cap p (words (t.entries u)) = q at *
    by_cases hlt : (t.cells u).length < size
    · rw [if_pos hlt, Frames.frames_blank hb, Frames.pend_cons, Frames.hold_blank hb,
        Frames.pend_nil, List.append_assoc, List.append_assoc, ih (u + 1) none (by omega)
          (by omega),
        Option.toList_none, List.nil_append, ← List.append_assoc, hfs, List.append_assoc]
    · rw [if_neg hlt, Frames.frames_nil, Frames.pend_nil, List.nil_append, List.append_assoc,
        ih (u + 1) q (by omega) (by omega), ← List.append_assoc, hfs, List.append_assoc]

/-- **Reading gives back the frames**, the words of a frame that began in a
page no longer kept apart. -/
theorem Laid.frames_stream (hb : start blank) {t : Tape τ α} (h : t.Laid start blank cap size) :
    Frames.frames start blank cap none (stream blank size t.cells t.lo (t.hi - t.lo) ++ [blank]) =
      t.contents.map Prod.snd := by
  have hle := h.le
  have hcont := h.cont t.lo le_rfl hle
  rw [h.stream_eq (t.hi - t.lo) t.lo le_rfl (by omega), List.append_assoc, Frames.frames_append,
    Frames.frames_of_cont hcont, Frames.pend_none_of_cont hcont, List.nil_append,
    Frames.frames_append, Frames.frames_blank hb,
    h.frames_body hb (t.hi - t.lo) t.lo none le_rfl (by omega), contents, List.map_flatMap]
  rfl

end Reading

/-! ## Writing -/

/-- A frame appended to the newest page. -/
def append (t : Tape τ α) (e : τ × List α) : Tape τ α :=
  { t with
    cells := fun u => if u + 1 = t.hi then t.cells u ++ e.2 else t.cells u
    entries := fun u => if u + 1 = t.hi then t.entries u ++ [e] else t.entries u }

/-- A page turned: the first `r` words of the frame are in the page that was
the newest, the rest and the frames `es` in the new one. -/
def turn (t : Tape τ α) (r : ℕ) (e : τ × List α) (es : List (τ × List α)) : Tape τ α :=
  { t with
    hi := t.hi + 1
    cells := fun u =>
      if u = t.hi then e.2.drop r ++ words es
      else if u + 1 = t.hi then t.cells u ++ e.2.take r else t.cells u
    carry := fun u => if u = t.hi ∧
      0 < r then e.2.drop r else if u = t.hi + 1 then [] else t.carry u
    entries := fun u =>
      if u = t.hi then (if 0 < r then es else e :: es)
      else if u + 1 = t.hi ∧ 0 < r then t.entries u ++ [e] else t.entries u }

section Turn

variable {t : Tape τ α} {r u : ℕ} {e : τ × List α} {es : List (τ × List α)}

theorem turn_cells_new : (t.turn r e es).cells t.hi = e.2.drop r ++ words es := if_pos rfl

theorem turn_cells_last (hu : u + 1 = t.hi) :
    (t.turn r e es).cells u = t.cells u ++ e.2.take r := by
  simp only [turn, if_neg (show u ≠ t.hi by omega), if_pos hu]

theorem turn_cells_of_lt (hu : u + 1 < t.hi) : (t.turn r e es).cells u = t.cells u := by
  simp only [turn, if_neg (show u ≠ t.hi by omega), if_neg (show u + 1 ≠ t.hi by omega)]

theorem turn_carry_new :
    (t.turn r e es).carry t.hi = if 0 < r then e.2.drop r else t.carry t.hi := by
  simp [turn]

theorem turn_carry_of_lt (hu : u < t.hi) : (t.turn r e es).carry u = t.carry u := by
  simp only [turn]
  rw [if_neg (by omega), if_neg (by omega)]

theorem turn_carry_end : (t.turn r e es).carry (t.hi + 1) = [] := by
  simp [turn]

theorem turn_entries_new : (t.turn r e es).entries t.hi = if 0 < r then es else e :: es :=
  if_pos rfl

theorem turn_entries_last (hu : u + 1 = t.hi) :
    (t.turn r e es).entries u = if 0 < r then t.entries u ++ [e] else t.entries u := by
  simp only [turn, if_neg (show u ≠ t.hi by omega), hu, true_and]

theorem turn_entries_of_lt (hu : u + 1 < t.hi) : (t.turn r e es).entries u = t.entries u := by
  simp only [turn]
  rw [if_neg (by omega), if_neg (by omega)]

end Turn

/-- The oldest page dropped. -/
def drop (t : Tape τ α) : Tape τ α := { t with lo := t.lo + 1 }

theorem contents_append (t : Tape τ α) (h : t.lo < t.hi) (e : τ × List α) :
    (t.append e).contents = t.contents ++ [e] := by
  obtain ⟨n, hn⟩ : ∃ n, t.hi - t.lo = n + 1 := ⟨t.hi - t.lo - 1, by omega⟩
  have hlast : t.lo + n + 1 = t.hi := by omega
  simp only [contents, append, hn, List.range'_1_concat, List.flatMap_append, List.flatMap_cons,
    List.flatMap_nil, List.append_nil, if_pos hlast, List.append_assoc]
  congr 1
  refine List.flatMap_congr fun u hu => ?_
  have := List.mem_range'_1.1 hu
  exact if_neg (by omega)

theorem contents_turn (t : Tape τ α) {r : ℕ} (hle : t.lo ≤ t.hi) (h : 0 < r → t.lo < t.hi)
    (e : τ × List α) (es : List (τ × List α)) :
    (t.turn r e es).contents = t.contents ++ e :: es := by
  have hn : t.hi + 1 - t.lo = (t.hi - t.lo) + 1 := by omega
  have hlast : t.lo + (t.hi - t.lo) = t.hi := by omega
  by_cases hr : 0 < r
  · -- the frame begins in the page that was the newest
    have happend := contents_append t (h hr) e
    simp only [contents, append] at happend
    simp only [contents, turn, hn, List.range'_1_concat, List.flatMap_append, List.flatMap_cons,
      List.flatMap_nil, hlast, if_true, hr, and_true, List.append_nil]
    calc _ = ((List.range' t.lo (t.hi - t.lo)).flatMap fun u =>
          if u + 1 = t.hi then t.entries u ++ [e] else t.entries u) ++ es := by
          congr 1
          refine List.flatMap_congr fun u hu => ?_
          have := List.mem_range'_1.1 hu
          exact if_neg (by omega)
      _ = _ := by rw [happend, List.append_assoc, List.singleton_append]
  · simp only [contents, turn, hn, List.range'_1_concat, List.flatMap_append, List.flatMap_cons,
      List.flatMap_nil, hlast, if_true, hr, and_false, if_false, List.append_nil]
    congr 1
    refine List.flatMap_congr fun u hu => ?_
    have := List.mem_range'_1.1 hu
    exact if_neg (by omega)

theorem contents_drop (t : Tape τ α) (h : t.lo < t.hi) :
    t.contents = t.entries t.lo ++ t.drop.contents := by
  obtain ⟨n, hn⟩ : ∃ n, t.hi - t.lo = n + 1 := ⟨t.hi - t.lo - 1, by omega⟩
  simp only [contents, drop, hn, show t.hi - (t.lo + 1) = n by omega, List.range'_succ,
    List.flatMap_cons]

section Writing

variable {start : α → Prop} {blank : α} {cap size : ℕ}

theorem Laid.append {t : Tape τ α} (h : t.Laid start blank cap size) {e : τ × List α}
    (he : Frames.IsFrame start blank cap e.2)
    (hroom : ∀ u, u + 1 = t.hi → (t.cells u).length + e.2.length ≤ size) :
    (t.append e).Laid start blank cap size := by
  refine ⟨h.le, fun u hlo hu => ?_, fun u hlo hu => ?_, fun u hlo hu hc => ?_, h.cont,
    fun u hlo hu f hf => ?_, h.last⟩
  · by_cases hlast : u + 1 = t.hi
    · have hsplit := h.split u hlo hu
      have hc : t.carry (u + 1) = [] := by rw [hlast]; exact h.last
      simp only [Tape.append, if_pos hlast, hc, List.append_nil] at hsplit ⊢
      rw [hsplit]
      simp [words]
    · simp only [Tape.append, if_neg hlast]
      exact h.split u hlo hu
  · by_cases hlast : u + 1 = t.hi
    · simp only [Tape.append, if_pos hlast, List.length_append]
      exact hroom u hlast
    · simp only [Tape.append, if_neg hlast]
      exact h.length_le u hlo hu
  · have hlast : u + 1 ≠ t.hi := fun hl => hc (by rw [hl]; exact h.last)
    simp only [Tape.append, if_neg hlast]
    exact h.full u hlo hu hc
  · by_cases hlast : u + 1 = t.hi
    · simp only [Tape.append, if_pos hlast] at hf
      rcases List.mem_append.1 hf with hf | hf
      · exact h.frame u hlo hu f hf
      · obtain rfl := List.mem_singleton.1 hf
        exact he
    · simp only [Tape.append, if_neg hlast] at hf
      exact h.frame u hlo hu f hf

section Turn

variable {t : Tape τ α} {r : ℕ} {e : τ × List α} {es : List (τ × List α)}

/-- A page is one of those before the newest one, or that, or the new one. -/
theorem turn_cases {u n : ℕ} (hu : u < n + 1) : u + 1 < n ∨ u + 1 = n ∨ u = n := by omega

theorem Laid.turn_split (h : t.Laid start blank cap size) {u : ℕ} (hlo : t.lo ≤ u)
    (hu : u < t.hi + 1) : (t.turn r e es).cells u ++ (t.turn r e es).carry (u + 1) =
      (t.turn r e es).carry u ++ words ((t.turn r e es).entries u) := by
  rcases turn_cases hu with hu | hu | rfl
  · rw [turn_cells_of_lt hu, turn_carry_of_lt hu, turn_carry_of_lt (by omega),
      turn_entries_of_lt hu]
    exact h.split u hlo (by omega)
  · have hsplit := h.split u hlo (by omega)
    rw [hu, h.last, List.append_nil] at hsplit
    rw [turn_cells_last hu, hu, turn_carry_new, turn_carry_of_lt (by omega), turn_entries_last hu,
      hsplit]
    by_cases hr : 0 < r
    · rw [if_pos hr, if_pos hr, List.append_assoc, List.append_assoc, List.take_append_drop]
      simp [words]
    · obtain rfl : r = 0 := by omega
      simp [h.last]
  · rw [turn_cells_new, turn_carry_end, turn_carry_new, turn_entries_new, List.append_nil]
    by_cases hr : 0 < r
    · rw [if_pos hr, if_pos hr]
    · obtain rfl : r = 0 := by omega
      simp [words, h.last]

theorem Laid.turn_length_le (h : t.Laid start blank cap size)
    (hfill : 0 < r → ∀ u, u + 1 = t.hi → (t.cells u).length + r = size)
    (hroom : (e.2.drop r ++ words es).length ≤ size) {u : ℕ} (hlo : t.lo ≤ u)
    (hu : u < t.hi + 1) : ((t.turn r e es).cells u).length ≤ size := by
  rcases turn_cases hu with hu | hu | rfl
  · rw [turn_cells_of_lt hu]
    exact h.length_le u hlo (by omega)
  · rw [turn_cells_last hu, List.length_append, List.length_take]
    by_cases hr : 0 < r
    · have := hfill hr u hu
      omega
    · have := h.length_le u hlo (by omega)
      omega
  · rw [turn_cells_new]
    exact hroom

theorem Laid.turn_full (h : t.Laid start blank cap size)
    (hfill : 0 < r → r < e.2.length ∧ ∀ u, u + 1 = t.hi → (t.cells u).length + r = size)
    {u : ℕ} (hlo : t.lo ≤ u) (hu : u < t.hi + 1) (hc : (t.turn r e es).carry (u + 1) ≠ []) :
    ((t.turn r e es).cells u).length = size := by
  rcases turn_cases hu with hu | hu | rfl
  · rw [turn_carry_of_lt hu] at hc
    rw [turn_cells_of_lt hu]
    exact h.full u hlo (by omega) hc
  · rw [hu, turn_carry_new] at hc
    by_cases hr : 0 < r
    · obtain ⟨hlt, hsize⟩ := hfill hr
      rw [turn_cells_last hu, List.length_append, List.length_take, ← hsize u hu]
      omega
    · rw [if_neg hr, h.last] at hc
      exact absurd rfl hc
  · exact absurd turn_carry_end hc

theorem Laid.turn_cont (h : t.Laid start blank cap size) (he : Frames.IsFrame start blank cap e.2)
    {u : ℕ} (hlo : t.lo ≤ u) (hu : u ≤ t.hi + 1) {w : α} (hw : w ∈ (t.turn r e es).carry u) :
    ¬ start w := by
  by_cases hend : u = t.hi + 1
  · rw [hend, turn_carry_end] at hw
    cases hw
  by_cases hnew : u = t.hi
  · rw [hnew, turn_carry_new] at hw
    split at hw
    · -- what goes over is a part of the frame without its first word
      rename_i hr
      refine he.cont_tail w ?_
      have hsub : e.2.drop r = e.2.tail.drop (r - 1) := by
        rw [← List.drop_one, List.drop_drop]
        congr 1
        omega
      rw [hsub] at hw
      exact List.mem_of_mem_drop hw
    · exact h.cont t.hi h.le le_rfl w hw
  · rw [turn_carry_of_lt (by omega)] at hw
    exact h.cont u hlo (by omega) w hw

theorem Laid.turn_frame (h : t.Laid start blank cap size) (he : Frames.IsFrame start blank cap e.2)
    (hes : ∀ f ∈ es, Frames.IsFrame start blank cap f.2) {u : ℕ} (hlo : t.lo ≤ u)
    (hu : u < t.hi + 1) {f : τ × List α} (hf : f ∈ (t.turn r e es).entries u) :
    Frames.IsFrame start blank cap f.2 := by
  rcases turn_cases hu with hu | hu | rfl
  · rw [turn_entries_of_lt hu] at hf
    exact h.frame u hlo (by omega) f hf
  · rw [turn_entries_last hu] at hf
    split at hf
    · rcases List.mem_append.1 hf with hf | hf
      · exact h.frame u hlo (by omega) f hf
      · obtain rfl := List.mem_singleton.1 hf
        exact he
    · exact h.frame u hlo (by omega) f hf
  · rw [turn_entries_new] at hf
    split at hf
    · exact hes f hf
    · rcases List.mem_cons.1 hf with rfl | hf
      · exact he
      · exact hes f hf

theorem Laid.turn (h : t.Laid start blank cap size)
    (he : Frames.IsFrame start blank cap e.2)
    (hes : ∀ f ∈ es, Frames.IsFrame start blank cap f.2)
    (hfill : 0 < r → t.lo < t.hi ∧ r < e.2.length ∧
      ∀ u, u + 1 = t.hi → (t.cells u).length + r = size)
    (hroom : (e.2.drop r ++ words es).length ≤ size) :
    (t.turn r e es).Laid start blank cap size where
  le := Nat.le_succ_of_le h.le
  split _ hlo hu := h.turn_split hlo hu
  length_le _ hlo hu := h.turn_length_le (fun hr => (hfill hr).2.2) hroom hlo hu
  full _ hlo hu hc := h.turn_full (fun hr => (hfill hr).2) hlo hu hc
  cont _ hlo hu _ hw := h.turn_cont he hlo hu hw
  frame _ hlo hu _ hf := h.turn_frame he hes hlo hu hf
  last := turn_carry_end

end Turn

theorem Laid.drop {t : Tape τ α} (h : t.Laid start blank cap size) (hlt : t.lo < t.hi) :
    t.drop.Laid start blank cap size := by
  have hlo : ∀ u, t.lo + 1 ≤ u → t.lo ≤ u := fun u hu => by omega
  exact ⟨hlt, fun u hu => h.split u (hlo u hu), fun u hu => h.length_le u (hlo u hu),
    fun u hu => h.full u (hlo u hu), fun u hu => h.cont u (hlo u hu),
    fun u hu => h.frame u (hlo u hu), h.last⟩

end Writing

end Tape

end AntTracer
