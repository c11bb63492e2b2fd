import AntTracer.App.Recovery

/-!
# The log as a pen

Appending, without its steps: a record goes behind the last one, or, if there
is no room for it in the page, over the end of the page into the next one,
which is erased first (`Pen.put`). From the moment a record is handed to
`wrGo` the log is on its way to that state (`goal`), whatever the soft device
does, and a reboot between two records finds the pen where it was. So reboots
do not show in the flash (`resumes`).
-/

namespace AntTracer

namespace App

/-! ## Appending in one step -/

/-- The flash, where the next record goes, and the number of the last sequence
record. -/
structure Pen where
  flash : ℕ → Word
  ptr : ℕ
  sequence : Word

/-- The first word of the page. -/
abbrev pageOf (ptr : ℕ) : ℕ := ptr / pageWords * pageWords

/-- The end of the page; at the very beginning of a page the last one is just
full. -/
abbrev pageEnd (ptr : ℕ) : ℕ := if ptr = pageOf ptr then pageOf ptr else pageOf ptr + pageWords

namespace Pen

/-- The words left in the page. -/
def room (p : Pen) : ℕ := if p.ptr = pageOf p.ptr then 0 else pageOf p.ptr + pageWords - p.ptr

/-- The next page. -/
def next (p : Pen) : ℕ := if pageEnd p.ptr ≥ storeEnd then storeStart else pageEnd p.ptr

/-- Where a record begins that goes over the end of the page: from the last
page of the store it does not. -/
def start (p : Pen) : ℕ := if p.ptr > p.next then p.next else p.ptr

/-- A record over the end of the page, and a sequence record. -/
def turn (p : Pen) (ws : List Word) : Pen :=
  let ws := ws ++ [sequenceWord (p.sequence + 1#32)]
  ⟨burn (wipe p.flash (p.next / pageWords)) p.start ws, p.start + ws.length, p.sequence + 1#32⟩

/-- A record written. -/
def put (p : Pen) (ws : List Word) : Pen :=
  if ws.length > p.room then p.turn ws
  else ⟨burn p.flash p.ptr ws, p.ptr + ws.length, p.sequence⟩

end Pen

/-- The pen of a log. -/
def Log.pen (s : Log) : Pen := ⟨s.flash, s.currentWrite, s.sequence⟩

/-- **What the log is on its way to.** -/
def goal (s : Log) : Pen :=
  match s.wrState with
  | .idle => s.pen
  | .erase1 | .erase2 | .erase3 => s.pen.put s.buf.words
  | .write1 | .write2 | .write3 =>
    ⟨burn s.flash s.currentWrite s.buf.words, s.currentWrite + s.buf.words.length, s.sequence⟩

theorem burn_take (flash : ℕ → Word) (a : ℕ) (W : List Word) (k : ℕ) :
    burn (burn flash a (W.take k)) a W = burn flash a W := by
  funext x
  by_cases hx : a ≤ x ∧ x < a + W.length
  · simp only [burn, if_pos hx]
  · rw [burn_of_not hx, burn_of_not hx, burn_of_not]
    rw [List.length_take]
    omega

@[simp] theorem wipe_wipe (flash : ℕ → Word) (page : ℕ) :
    wipe (wipe flash page) page = wipe flash page := by
  funext a
  simp only [wipe]
  split <;> rfl

theorem Pen.put_wipe {p : Pen} {ws : List Word} (h : ws.length > p.room) :
    Pen.put ⟨wipe p.flash (p.next / pageWords), p.ptr, p.sequence⟩ ws = p.put ws := by
  have hroom : Pen.room ⟨wipe p.flash (p.next / pageWords), p.ptr, p.sequence⟩ = p.room := rfl
  rw [Pen.put, Pen.put, hroom, if_pos h, if_pos h, Pen.turn, Pen.turn]
  exact congrArg₂ (fun f (a : ℕ) => (⟨burn f p.start _, a, _⟩ : Pen)) (wipe_wipe _ _) rfl

section Tape

variable {s : Log} {t : LogTape} {spare : List Word} {flash : ℕ → Word}

/-- An erased page is not changed by an erase. -/
theorem Disk.wipe_next (h : Disk t spare flash) (hc : Cleared t spare) :
    wipe flash (64 + t.hi % storePages) = flash := by
  obtain ⟨hnext, rfl⟩ := hc
  have hblank := holds_nil_iff.1 (h.next hnext)
  funext a
  by_cases ha : a / pageWords = 64 + t.hi % storePages
  · rw [wipe, if_pos ha]
    have := hblank (a - pageAt (t.hi % storePages))
      (by simp only [pageAt, storeStart, pageWords] at *; omega)
    rw [show pageAt (t.hi % storePages) + (a - pageAt (t.hi % storePages)) = a by
      simp only [pageAt, storeStart, pageWords] at *; omega] at this
    exact this.symm
  · exact if_neg ha

/-- Where the pen of a tape stands. -/
theorem Disk.pen_eq (h : Disk t spare flash) {p : Pen} (hptr : p.ptr = tailOf t) :
    p.room = roomOf t ∧ p.next = pageAt (t.hi % storePages) ∧ p.start = newStart t := by
  have hnext : p.next = pageAt (t.hi % storePages) := by
    rw [Pen.next, hptr]
    exact Disk.next_eq (s := { Log.off flash with flash := flash }) h rfl
  refine ⟨?_, hnext, ?_⟩
  · rw [Pen.room, hptr]
    exact Disk.remain_eq (s := { Log.off flash with flash := flash }) h
  · rw [Pen.start, hnext, hptr]
    exact Disk.newStart_eq (s := { Log.off flash with flash := flash }) h

theorem pageAt_div (k : ℕ) : pageAt k / pageWords = 64 + k := by
  simp only [pageAt, storeStart, pageWords]
  omega

end Tape

/-! ## Every step but an append keeps the goal -/

section Goal

variable {s : Log} {t : LogTape} {spare : List Word} {rs : List Appended} {r : Appended}

theorem goal_idle (h : s.wrState = .idle) : goal s = s.pen := by rw [goal, h]

theorem goal_erase1 (h : s.wrState = .erase1) : goal s = s.pen.put s.buf.words := by rw [goal, h]

theorem goal_write1 (h : s.wrState = .write1) : goal s =
    ⟨burn s.flash s.currentWrite s.buf.words, s.currentWrite + s.buf.words.length, s.sequence⟩ := by
  rw [goal, h]

/-- The write of a record, with a sequence record if one is due. -/
theorem Begun.goal_write (b : Begun s t spare rs r) (hstate : s.wrState = .write1)
    (hblank : s.flash s.currentWrite = erasedWord) (cnt : ℕ) :
    goal (wrWrite s.currentWrite cnt s).1 =
      if s.needSeq then
        ⟨burn s.flash s.currentWrite (r.words ++ [sequenceWord (s.sequence + 1#32)]),
          s.currentWrite + (r.words ++ [sequenceWord (s.sequence + 1#32)]).length,
            s.sequence + 1#32⟩
      else ⟨burn s.flash s.currentWrite r.words, s.currentWrite + r.words.length, s.sequence⟩ := by
  rw [wrWrite, if_neg (not_not.2 hblank)]
  by_cases hneed : s.needSeq = true
  · have hlen : s.buf.bufferIndex + 1 = r.words.length := by rw [← b.buf, Buffer.length_words]
    have hshort := b.record.short
    obtain ⟨hw, hq⟩ := words_wrSeq (q := s.sequence) (b := s.buf) (by omega)
    rw [b.buf] at hw
    simp only [hneed, if_true]
    refine (goal_write1 ?_).trans ?_
    · exact hstate
    · rw [← hw, ← hq]
      rfl
  · simp only [hneed]
    refine (goal_write1 ?_).trans ?_
    · exact hstate
    · rw [← b.buf]
      rfl

/-- **What `wrGo` begins leads to the record written.** -/
theorem Begun.goal_find (b : Begun s t spare rs r)
    (hstate : s.wrState = .erase1 ∨ (s.wrState = .erase2 ∧ Cleared t spare))
    (hneed : s.needSeq = false)
    (htail : s.currentWrite = tailOf t) :
    goal (wrErase s.currentWrite (pageEnd s.currentWrite) (roomOf t) r.words.length s).1 =
      s.pen.put r.words := by
  obtain ⟨hroom, hnext, hstart⟩ := b.disk.pen_eq (p := s.pen) htail
  have hpos := b.record.length_pos
  rw [wrErase, Pen.put, hroom]
  by_cases hmore : r.words.length > roomOf t
  · rw [if_pos hmore, if_pos hmore]
    have hto : (if pageEnd s.currentWrite ≥ storeEnd then storeStart else pageEnd s.currentWrite) =
        pageAt (t.hi % storePages) := hnext
    simp only [hto]
    by_cases hblank : s.flash (pageAt (t.hi % storePages)) = erasedWord
    · have hc := b.disk.cleared hblank
      -- the page is erased already
      have hwipe : wipe s.flash (s.pen.next / pageWords) = s.flash := by
        rw [hnext, pageAt_div]
        exact b.disk.wipe_next hc
      have hp : Placed t spare r.words (r.words ++ [sequenceWord (pageNumber t.hi)]) (newStart t)
          (t.hi + 1) := .turning hmore hc
      have hfirst := hp.blank b.disk b.record (i := 0) (by simp)
      rw [Nat.add_zero] at hfirst
      have hturn : s.pen.turn r.words = ⟨burn s.flash (newStart t)
          (r.words ++ [sequenceWord (s.sequence + 1#32)]), newStart t +
            (r.words ++ [sequenceWord (s.sequence + 1#32)]).length, s.sequence + 1#32⟩ := by
        rw [Pen.turn, hstart]
        exact congrArg (fun f => (⟨burn f _ _, _, _⟩ : Pen)) hwipe
      have hnew := b.disk.newStart_eq
      rw [if_neg (not_not.2 hblank), hturn, htail]
      by_cases hgt : tailOf t > pageAt (t.hi % storePages)
      · rw [if_pos hgt] at hnew ⊢
        rw [← hnew] at hfirst ⊢
        exact Begun.goal_write
          (s := { s with
            currentWrite := pageAt (t.hi % storePages)
            needSeq := true
            wrState := .write1 })
          (b.congr rfl rfl rfl rfl rfl) rfl hfirst _
      · rw [if_neg hgt] at hnew ⊢
        rw [← hnew] at hfirst ⊢
        have := Begun.goal_write (s := { s with needSeq := true, wrState := .write1 })
          (b.congr rfl rfl rfl rfl rfl) rfl
          (by
            change s.flash s.currentWrite = erasedWord
            rw [htail]
            exact hfirst) r.words.length
        rw [← htail]
        exact this
    · rw [if_pos hblank]
      have herase : s.wrState = .erase1 := hstate.resolve_right fun hc => hblank <| by
        obtain ⟨-, hnext, rfl⟩ := hc
        exact holds_nil_iff.1 (b.disk.next hnext) 0 (by decide)
      refine (goal_erase1 herase).trans ?_
      rw [b.buf, Pen.put, hroom, if_pos hmore]
  · rw [if_neg hmore, if_neg hmore]
    have hp : Placed t spare r.words r.words (tailOf t) t.hi := .inPage (by omega)
    have hfirst := hp.blank b.disk b.record hpos
    rw [Nat.add_zero, ← htail] at hfirst
    have := Begun.goal_write (s := { s with wrState := .write1 }) (b.congr rfl rfl rfl rfl rfl) rfl
      hfirst r.words.length
    rw [this]
    exact if_neg (by rw [hneed]; exact Bool.false_ne_true)

/-- A record is in the buffer. -/
def begun (ty : Word) (fs : List (ℕ × Word)) (s : Log) : Log :=
  { s with
    buf := wrFields fs (wrNew ty s.buf)
    records := s.records ++ [⟨recordWords ty fs s.buf, none, .writing, false⟩]
    wrState := .erase1 }

theorem Idle.begun (h : Idle s t spare) {ty : Word} {fs : List (ℕ × Word)}
    (hrec : IsRecord (recordWords ty fs s.buf)) :
    Begun (begun ty fs s) t spare s.records ⟨recordWords ty fs s.buf, none, .writing, false⟩ :=
  ⟨h.disk, h.linked, h.settled, rfl, rfl, rfl, hrec, rfl, h.sequence, h.advances⟩

/-- The first call of `wrGo` for a record. -/
theorem Idle.append_eq (h : Idle s t spare) {ty : Word} {fs : List (ℕ × Word)}
    (hrec : IsRecord (recordWords ty fs s.buf)) :
    appendRecord ty fs s = wrErase s.currentWrite (pageEnd s.currentWrite) (roomOf t)
      (recordWords ty fs s.buf).length (App.begun ty fs s) := by
  have hshort := hrec.short
  have hlen : (wrFields fs (wrNew ty s.buf)).bufferIndex + 1 =
    (recordWords ty fs s.buf).length := by
    rw [recordWords, Buffer.length_words]
  have hremain := h.disk.remain_eq
  rw [← h.tail] at hremain
  rw [appendRecord, wrGo, h.state]
  simp only
  rw [if_neg (by omega), hlen, hremain]
  rfl

/-- **A new record** sets the goal. -/
theorem Idle.goal_append (h : Idle s t spare) {ty : Word} {fs : List (ℕ × Word)}
    (hrec : IsRecord (recordWords ty fs s.buf)) :
    goal (appendRecord ty fs s).1 = (goal s).put (recordWords ty fs s.buf) := by
  rw [h.append_eq hrec, goal_idle h.state]
  exact (h.begun hrec).goal_find (Or.inl rfl) h.needSeq h.tail

/-- **An event of the soft device** keeps the goal. -/
theorem Working.goal_step (h : Working s) (e : SdEvent) : goal (sdEvent s e) = goal s := by
  cases h with
  | @erasing t spare rs r b more state needSeq tail op =>
    rcases op with ⟨done, op, hdone⟩ | ⟨hc, hsd, hfc⟩
    · obtain ⟨now, sd', fc, tries, heq, hout⟩ := op.step e
      obtain ⟨hroom, hnext, -⟩ := b.disk.pen_eq (p := s.pen) tail
      rw [heq]
      refine (goal_erase1 (by cases now <;> exact state)).trans
        (Eq.trans ?_ (goal_erase1 state).symm)
      cases now with
      | false => rfl
      | true =>
        rw [← Pen.put_wipe (p := s.pen) (by rw [hroom, b.buf]; exact more), hnext, pageAt_div]
        rfl
    · rw [sdEvent_of_none hsd]
  | @writing t spare flash rs r W n k w op =>
    rcases op with ⟨j, hj, op⟩ | ⟨hk, hsd, hfc⟩
    · obtain ⟨flash', sd', fc, tries, written', heq, hout⟩ := op.step e
      have hb : Burnt s flash s.currentWrite W j k :=
        ⟨w.flash_eq, hj, w.le, fun i hi => w.placed.blank w.disk w.record hi⟩
      have hflash : burn flash' s.currentWrite W = burn s.flash s.currentWrite W := by
        rw [w.flash_eq, burn_take]
        obtain ⟨-, -, j', -, -, hflash⟩ | ⟨-, -, -, hflash⟩ := hout
        · obtain ⟨k', -, -, h₃⟩ := hflash flash k hb
          rw [h₃, burn_take]
        · have := burn_take flash s.currentWrite W W.length
          rw [List.take_length] at this
          rw [hflash flash k hb, this]
      rw [heq]
      refine (goal_write1 (by exact w.state)).trans (Eq.trans ?_ (goal_write1 w.state).symm)
      change Pen.mk (burn flash' s.currentWrite s.buf.words) _ _ = _
      rw [w.buf, hflash]
    · rw [sdEvent_of_none hsd]

/-- The call of `wrGo` after an erase. -/
theorem Begun.go_eq (b : Begun s t spare rs r) (hstate : s.wrState = .erase1)
    (htail : s.currentWrite = tailOf t) :
    wrGo s = wrErase s.currentWrite (pageEnd s.currentWrite) (roomOf t) r.words.length
      { s with wrState := .erase2 } := by
  have hlen : s.buf.bufferIndex + 1 = r.words.length := by rw [← b.buf, Buffer.length_words]
  have hremain := b.disk.remain_eq
  rw [← htail] at hremain
  rw [wrGo, hstate]
  simp only
  rw [hlen, hremain]

/-- **A further call of `wrGo`** keeps the goal. -/
theorem Working.goal_go (h : Working s) (hfc : s.flashComplete = true) :
    goal (wrGo s).1 = goal s := by
  cases h with
  | @erasing t spare rs r b more state needSeq tail op =>
    rcases op with ⟨done, op, -⟩ | ⟨hc, hsd, -⟩
    · have hfc' := op.complete
      rw [hfc] at hfc'
      cases hfc'
    · have b' : Begun { s with wrState := .erase2 } t spare rs r := b.congr rfl rfl rfl rfl rfl
      rw [b.go_eq state tail, goal_erase1 state, b.buf]
      exact b'.goal_find (Or.inr ⟨rfl, hc⟩) needSeq tail
  | @writing t spare flash rs r W n k w op =>
    rcases op with ⟨j, -, op⟩ | ⟨rfl, hsd, -⟩
    · have hfc' := op.complete
      rw [hfc] at hfc'
      cases hfc'
    · have hlen : s.buf.bufferIndex + 1 = W.length := by rw [← w.buf, Buffer.length_words]
      have hflash : s.flash = burn flash s.currentWrite W := by
        rw [w.flash_eq, List.take_length]
      have hfirst : s.flash s.currentWrite ≠ erasedWord := by
        rw [hflash]
        exact w.placed.first_ne w.record
      rw [wrGo, w.state, goal_write1 w.state]
      simp only
      rw [wrWrite, if_pos hfirst, hlen]
      refine (goal_idle rfl).trans ?_
      change Pen.mk s.flash (s.currentWrite + W.length) s.sequence = _
      have hburn := burn_take flash s.currentWrite W W.length
      rw [List.take_length] at hburn
      rw [w.buf, hflash, hburn]

/-- **A reboot between two records** finds the pen where it was. -/
theorem Idle.pen_boot (h : Idle s t spare) : (boot s).pen = s.pen ∧ (boot s).wrState = .idle := by
  have hlinked : Linked t (noteStatus .cut s.records) := by
    rw [noteStatus_settled h.settled]
    exact h.linked
  obtain ⟨hidle, -⟩ := h.disk.boot hlinked h.advances
  refine ⟨?_, hidle.state⟩
  rw [Log.pen, Log.pen, boot_flash, hidle.tail, hidle.sequence, h.tail, h.sequence]

end Goal

/-! ## Runs -/

/-- The power is lost between two records only. -/
def Clean (s : Log) : LogEvent → Prop
  | .power => s.wrState = .idle
  | _ => True

instance (s : Log) (e : LogEvent) : Decidable (Clean s e) := by
  cases e <;> unfold Clean <;> infer_instance

/-- The record a step takes. -/
def takes (s : Log) : LogEvent → List Rec
  | .append r => if s.wrState = .idle then [r] else []
  | _ => []

/-- The records a run appends. -/
def taken (s : Log) : List LogEvent → List Rec
  | [] => []
  | e :: es => takes s e ++ taken (logStep s e) es

/-- The records written one after the other. -/
def Pen.puts (p : Pen) (rs : List Rec) : Pen := rs.foldl (fun p r => p.put r.words) p

theorem Working.state_ne {s : Log} (h : Working s) : s.wrState ≠ .idle := by
  cases h with
  | erasing _ _ state => rw [state]; nofun
  | writing w => rw [w.state]; nofun

/-- **A step writes the record it takes**, sooner or later. -/
theorem Steady.goal_step {s : Log} (h : Steady s) {e : LogEvent} (hclean : Clean s e) :
    goal (logStep s e) = (goal s).puts (takes s e) := by
  cases e with
  | append r =>
    rw [logStep, takes]
    split
    · rename_i hstate
      obtain ⟨-, t, spare, hidle⟩ := h.resolve_right fun hwork => hwork.state_ne hstate
      rw [hidle.goal_append (r.isRecord s.buf), Pen.puts, List.foldl_cons,
        List.foldl_nil, Rec.words, recordWords_congr r.type r.fields s.buf]
    · rfl
  | device e =>
    rcases h with ⟨hsd, -⟩ | hwork
    · rw [logStep, sdEvent_of_none hsd]
      rfl
    · exact hwork.goal_step e
  | go =>
    rw [logStep]
    split
    · rename_i hgo
      rcases h with ⟨-, t, spare, hidle⟩ | hwork
      · exact absurd hidle.state hgo.1
      · exact hwork.goal_go hgo.2
    · rfl
  | power =>
    obtain ⟨-, t, spare, hidle⟩ := h.resolve_right fun hwork => hwork.state_ne hclean
    obtain ⟨hpen, hstate⟩ := hidle.pen_boot
    change goal (boot s) = goal s
    rw [goal_idle hstate, goal_idle hclean, hpen]

/-- **A run writes the records it takes**, one after the other. -/
theorem goal_run (es : List LogEvent) : ∀ s : Log, Steady s → Runs.Each logStep Clean s es →
    (Runs.run logStep s es).advances < 2 ^ 26 - 1 →
    Steady (Runs.run logStep s es) ∧ goal (Runs.run logStep s es) = (goal s).puts (taken s es) := by
  induction es with
  | nil => exact fun s h _ _ => ⟨h, rfl⟩
  | cons e es ih =>
    intro s h hclean hadv
    have hle := run_advances_ge (e :: es) s
    obtain ⟨h₁, h₂⟩ := ih (logStep s e) (h.step (by omega) e) hclean.2 hadv
    refine ⟨h₁, h₂.trans ?_⟩
    rw [h.goal_step hclean.1, taken, Pen.puts, Pen.puts, Pen.puts, List.foldl_append]

/-- **A clean reboot resumes exactly.** From an erased store, after any records
and any reboots between them, start up puts the write pointer and the sequence
number where they were. So any further records leave the same flash, whatever
reboots there are between them. -/
theorem resumes {flash : ℕ → Word}
    (hflash : ∀ a, storeStart ≤ a → a < storeEnd → flash a = erasedWord) (es : List LogEvent)
    (hclean : Runs.Each logStep Clean (boot (Log.off flash)) es)
    (hidle : (Runs.run logStep (boot (Log.off flash)) es).wrState = .idle)
    (hadv : (Runs.run logStep (boot (Log.off flash)) es).advances < 2 ^ 26 - 1) :
    let s := Runs.run logStep (boot (Log.off flash)) es
    (boot s).currentWrite = s.currentWrite ∧ (boot s).sequence = s.sequence ∧
      ∀ es₁ es₂ : List LogEvent, Runs.Each logStep Clean s es₁ → Runs.Each logStep Clean s es₂ →
        taken s es₁ = taken s es₂ →
        (Runs.run logStep s es₁).wrState = .idle → (Runs.run logStep s es₂).wrState = .idle →
        (Runs.run logStep s es₁).advances < 2 ^ 26 - 1 →
        (Runs.run logStep s es₂).advances < 2 ^ 26 - 1 →
        (Runs.run logStep s es₁).flash = (Runs.run logStep s es₂).flash := by
  intro s
  have hs : Steady s := (goal_run es _ (steady_boot hflash) hclean hadv).1
  obtain ⟨-, t, spare, hi⟩ := hs.resolve_right fun hwork => hwork.state_ne hidle
  refine ⟨congrArg Pen.ptr hi.pen_boot.1, congrArg Pen.sequence hi.pen_boot.1,
    fun es₁ es₂ hc₁ hc₂ htaken hi₁ hi₂ ha₁ ha₂ => ?_⟩
  have h₁ := (goal_run es₁ s hs hc₁ ha₁).2
  have h₂ := (goal_run es₂ s hs hc₂ ha₂).2
  rw [goal_idle hi₁, htaken] at h₁
  rw [goal_idle hi₂] at h₂
  exact congrArg Pen.flash (h₁.trans h₂.symm)

/-- A record appended, from the hand-over to the report. -/
def appendAll (r : Rec) : List LogEvent :=
  [.append r] ++ List.replicate 5 (.device .work) ++ [.device .success, .go]

set_option maxRecDepth 10000 in
/-- A record, a reboot, and a second one without and with a further reboot. -/
theorem resumes_execute :
    let s := Runs.run logStep (boot (Log.off fun _ => erasedWord))
      (appendAll (.execute ⟨1#32, 2#32⟩) ++ [.power])
    (boot s).currentWrite = s.currentWrite ∧ (boot s).sequence = s.sequence ∧
      (Runs.run logStep s (appendAll (.execute ⟨3#32, 4#32⟩))).flash =
        (Runs.run logStep s (.power :: appendAll (.execute ⟨3#32, 4#32⟩))).flash := by
  obtain ⟨h₁, h₂, h₃⟩ := @resumes (fun _ => erasedWord) (fun _ _ _ => rfl)
    (appendAll (.execute ⟨1#32, 2#32⟩) ++ [.power]) (by decide) (by decide) (by decide)
  exact ⟨h₁, h₂, h₃ _ _ (by decide) (by decide) rfl (by decide) (by decide) (by decide)
    (by decide)⟩

end App

end AntTracer
