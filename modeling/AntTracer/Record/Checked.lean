import AntTracer.Record.RoundTrip
import AntTracer.Record.Ring

/-!
# The scan with every access checked

`rd`, `importWord` and `readFlash` once more, with the bounds of the record
buffer and of the flash region checked at every access, and with loops that
have no bound on their rounds. There is no result when an access is out of
bounds or a loop does not end. `readFlash_eq` says that there always is one,
whatever the flash holds: it is that of the scan without checks, together with
the pages visited.
-/

namespace AntTracer

/-- A region, with every access to it checked. -/
abbrev Checked := Region

namespace Checked

/-! ## The source -/

/-- `buffer[i]`. -/
def load (buf : ℕ → Word) (i : ℕ) : Option Word :=
  if i < bufferSize then some (buf i) else none

/-- `buffer[i] = w`. -/
def store (buf : ℕ → Word) (i : ℕ) (w : Word) : Option (ℕ → Word) :=
  if i < bufferSize then some (Function.update buf i w) else none

/-- `*p`, for a pointer to a word of the region. -/
def fetch (g : Checked) (word : ℕ → Word) (p : ℕ) : Option Word :=
  if g.start ≤ p ∧ p + g.stride ≤ g.stop ∧ (p - g.start) % g.stride = 0 then some (word p)
  else none

/-- The loop of `rd` and what follows it. -/
def rdFrom (buf : ℕ → Word) (idx lim ptr bits ins : ℕ) (data : Word) :
    Option (Word × ℕ × ℕ × ℕ) :=
  if bits > ptr then do
    let data' ← (if ptr > 0 then do
        let w ← load buf idx
        some (data ||| ((w &&& mask ptr) <<< ins))
      else some data)
    let ins' := if ptr > 0 then ins + ptr else ins
    let bits' := if ptr > 0 then bits - ptr else bits
    if idx + 1 ≥ lim then rdFrom buf 0 0 31 bits' ins' data'
    else rdFrom buf (idx + 1) lim 31 bits' ins' data'
  else do
    let w ← load buf idx
    some (data ||| (((w >>> (ptr - bits)) &&& mask bits) <<< ins), idx, lim, ptr - bits)
termination_by 2 * bits + if ptr = 0 then 1 else 0
decreasing_by
  all_goals
    rw [if_neg not_false]
    split <;> split <;> omega

/-- Read a field of `bits` bits from the buffer. -/
def rd (bits : ℕ) (b : Buffer) : Option (Word × Buffer) := do
  let r ← rdFrom b.buffer b.bufferIndex b.bufferLimit b.bufferPointer bits 0 0#32
  some (r.1, { b with bufferIndex := r.2.1, bufferLimit := r.2.2.1, bufferPointer := r.2.2.2 })

/-- A run of `rd` calls, one for each width. -/
def rdFields : List ℕ → Buffer → Option (List Word × Buffer)
  | [], b => some ([], b)
  | n :: ns, b => do
    let r ← rd n b
    let rs ← rdFields ns r.2
    some (r.1 :: rs.1, rs.2)

/-- The `RT_SU_HDR` case of `importRecord`. -/
def rdSuInfo (b : Buffer) : Option (SuInfo × Buffer) := do
  let sequence ← rd 20 b
  let version ← rd 32 sequence.2
  let start ← rd 14 version.2
  let stop ← rd 14 start.2
  some (⟨sequence.1, version.1, start.1 <<< oqSuChunkShift, stop.1 <<< oqSuChunkShift⟩, stop.2)

/-- The `RT_SU_DATA` case. -/
def rdSuData (b : Buffer) : Option (SuData × Buffer) := do
  let sequence ← rd 20 b
  let address ← rd 13 sequence.2
  let data ← rdFields (List.replicate oqSuChunk 8) address.2
  some (⟨sequence.1, address.1 <<< oqSuChunkShift, data.1.map (BitVec.setWidth 8)⟩, data.2)

/-- The `RT_SU_EXEC` case. -/
def rdSuExec (b : Buffer) : Option (SuExec × Buffer) := do
  let sequence ← rd 20 b
  let version ← rd 32 sequence.2
  some (⟨sequence.1, version.1⟩, version.2)

section Source

variable {σ : Type} (R : Reader σ) (importRecord : σ → Option σ)

/-- Add a word to the record being collected. -/
def importWord (record : Word) (s : σ) : Option σ :=
  if record &&& recordBit ≠ 0#32 then do
    let s ← (if (R.buf s).bufferIndex < bufferSize then importRecord s else some s)
    if record = erasedWord then
      some (R.setBuf s { R.buf s with bufferIndex := bufferSize })
    else do
      let buffer ← store (R.buf s).buffer 0 record
      some (R.setBuf s { R.buf s with buffer := buffer, bufferIndex := 0 })
  else if (R.buf s).bufferIndex < bufferSize - 1 then do
    let buffer ← store (R.buf s).buffer ((R.buf s).bufferIndex + 1) record
    some (R.setBuf s
      { R.buf s with buffer := buffer, bufferIndex := (R.buf s).bufferIndex + 1 })
  else some s

/-- The sequence number in a page, looked for from `rp` up to `erp`. -/
def scanPage (g : Checked) (word : ℕ → Word) (erp rp : ℕ) : Option (Option ℕ) :=
  if rp < erp then do
    let rec_ ← fetch g word rp
    if rec_ = erasedWord then some none
    else if ¬ rec_ &&& recordBit ≠ 0#32 then g |>.scanPage word erp (rp + g.stride)
    else if recordType rec_ = rtSequence then some (some (rec_ &&& rdMask).toNat)
    else g |>.scanPage word erp (rp + g.stride)
  else some none
partial_fixpoint

/-- Scan the pages from `page` on. -/
def scanPages (g : Checked) (word : ℕ → Word) (page : ℕ) (b : Bounds) : Option Bounds :=
  if page < g.stop then do
    let q ← scanPage g word (page + g.pageStep) page
    g |>.scanPages word (page + g.pageStep) (b.note page q)
  else some b
partial_fixpoint

/-- Import the words of a page, from `rp` up to `erp`. -/
def importPage (g : Checked) (erp rp : ℕ) (s : σ) : Option σ :=
  if rp < erp then do
    let rec_ ← fetch g (R.word s) rp
    let s ← importWord R importRecord rec_ s
    if rec_ = erasedWord then some s else g |>.importPage erp (rp + g.stride) s
  else some s
partial_fixpoint

/-- Import all pages from `page` to `newp`; the result begins with the pages
visited. -/
def importPages (g : Checked) (newp page : ℕ) (s : σ) : Option (List ℕ × σ) := do
  let page := g.wrap page
  let s ← importPage R importRecord g (page + g.pageStep) page s
  if page = newp then do
    let s ← importWord R importRecord erasedWord s
    some ([page], s)
  else do
    let r ← g |>.importPages newp (page + g.pageStep) s
    some (page :: r.1, r.2)
partial_fixpoint

/-- The address beyond the last word in use, from `xp` down to `newp`. -/
def backScan (g : Checked) (word : ℕ → Word) (newp xp : ℕ) : Option ℕ :=
  if xp > newp then do
    let w ← fetch g word (xp - g.stride)
    if w ≠ erasedWord then some xp else g |>.backScan word newp (xp - g.stride)
  else some xp
partial_fixpoint

/-- Read the entire flash storage; the result begins with the pages visited. -/
def readFlash (g : Checked) (s : σ) : Option (List ℕ × σ × ℕ × ℕ) := do
  let b ← scanPages g (R.word s) g.start Bounds.init
  if b.newp ≠ 0 then do
    let s := importReset R s
    let r ← importPages R importRecord g b.newp b.oldp s
    let xp ← backScan g (R.word r.2) b.newp (b.newp + g.pageStep)
    some (r.1, r.2, xp, b.newq)
  else some ([], s, 0, 0)

end Source

/-! ## The record buffer -/

theorem load_eq {buf : ℕ → Word} {i : ℕ} (h : i < bufferSize) : load buf i = some (buf i) :=
  if_pos h

theorem store_eq {buf : ℕ → Word} {i : ℕ} {w : Word} (h : i < bufferSize) :
    store buf i w = some (Function.update buf i w) := if_pos h

/-- The buffer can be read from: the word in turn is among those provided, or
the first one after the reads ran past them. -/
def Readable (b : Buffer) : Prop :=
  b.bufferIndex < max b.bufferLimit 1 ∧ b.bufferLimit ≤ bufferSize

/-- The buffer as `importRecord` sets it up can be read from. -/
theorem readable_rewind {b : Buffer} (h : b.bufferIndex < bufferSize) : Readable b.rewind :=
  ⟨by simp [Buffer.rewind], h⟩

/-- **`rd` stays inside the buffer**, and ends. -/
theorem rdFrom_eq (n : ℕ) : ∀ (buf : ℕ → Word) (idx lim ptr bits ins : ℕ) (data : Word),
    bits ≤ 31 * n + ptr → idx < max lim 1 → lim ≤ bufferSize →
    rdFrom buf idx lim ptr bits ins data =
      some (AntTracer.rdFrom n buf idx lim ptr bits ins data) := by
  induction n with
  | zero =>
    intro buf idx lim ptr bits ins data hn hidx hlim
    have hload : idx < bufferSize := hidx.trans_le (max_le hlim (by decide))
    rw [rdFrom, if_neg (by omega), load_eq hload]
    rfl
  | succ n ih =>
    intro buf idx lim ptr bits ins data hn hidx hlim
    have hload : idx < bufferSize := hidx.trans_le (max_le hlim (by decide))
    rw [rdFrom, AntTracer.rdFrom, load_eq hload]
    by_cases hbits : bits > ptr
    · rw [if_pos hbits, if_pos hbits]
      have hdata : (if ptr > 0 then (do
            let w ← some (buf idx)
            some (data ||| ((w &&& mask ptr) <<< ins)))
          else some data) =
          some (if ptr > 0 then data ||| ((buf idx &&& mask ptr) <<< ins) else data) := by
        split <;> rfl
      rw [hdata]
      simp only [Option.bind_eq_bind, Option.bind_some]
      have hbits' : (if ptr > 0 then bits - ptr else bits) ≤ 31 * n + 31 := by
        split <;> omega
      by_cases hl : idx + 1 ≥ lim
      · -- past the words provided the index goes back to the first word
        rw [if_pos hl, if_pos hl]
        exact ih _ _ _ _ _ _ _ hbits' (by simp) (Nat.zero_le _)
      · rw [if_neg hl, if_neg hl]
        exact ih _ _ _ _ _ _ _ hbits' (by omega) hlim
    · rw [if_neg hbits, if_neg hbits]
      rfl

theorem rd_eq (bits : ℕ) {b : Buffer} (h : Readable b) :
    rd bits b = some (AntTracer.rd bits b) := by
  rw [rd, rdFrom_eq (bits + 1) _ _ _ _ _ _ _ (by omega) h.1 h.2]
  rfl

/-- After a read the buffer can be read from again. -/
theorem Readable.rd {b : Buffer} (h : Readable b) (bits : ℕ) :
    Readable (AntTracer.rd bits b).2 := by
  have hpos := rdFrom_pos (bits + 1) b.buffer b.bufferIndex b.bufferLimit b.bufferPointer bits 0
    0#32 (by omega)
  simp only [Readable, AntTracer.rd, hpos]
  split
  · rename_i hin
    rcases hin with hin | hin
    · exact ⟨hin.trans_le (le_max_left _ _), h.2⟩
    · rw [posIdx_of_le hin]
      exact h
  · exact ⟨by simp, Nat.zero_le _⟩

theorem rdFields_eq (ns : List ℕ) : ∀ {b : Buffer}, Readable b →
    rdFields ns b = some (AntTracer.rdFields ns b) := by
  induction ns with
  | nil => exact fun _ => rfl
  | cons n ns ih =>
    intro b h
    rw [rdFields, rd_eq n h]
    simp only [Option.bind_eq_bind, Option.bind_some, ih (h.rd n), AntTracer.rdFields]

theorem rdSuInfo_eq {b : Buffer} (h : Readable b) :
    rdSuInfo b = some (AntTracer.rdSuInfo b) := by
  simp only [rdSuInfo, rd_eq _ h, rd_eq _ (h.rd 20), rd_eq _ ((h.rd 20).rd 32),
    rd_eq _ (((h.rd 20).rd 32).rd 14), Option.bind_eq_bind, Option.bind_some]
  rfl

theorem rdSuData_eq {b : Buffer} (h : Readable b) :
    rdSuData b = some (AntTracer.rdSuData b) := by
  simp only [rdSuData, rd_eq _ h, rd_eq _ (h.rd 20), rdFields_eq _ ((h.rd 20).rd 13),
    Option.bind_eq_bind, Option.bind_some]
  rfl

theorem rdSuExec_eq {b : Buffer} (h : Readable b) :
    rdSuExec b = some (AntTracer.rdSuExec b) := by
  simp only [rdSuExec, rd_eq _ h, rd_eq _ (h.rd 20), Option.bind_eq_bind, Option.bind_some]
  rfl

/-! ## The flash region -/

section Scan

variable {g : Region} {N k : ℕ} {word : ℕ → Word}

/-- The words of a page are in the region. -/
theorem fetch_eq (hg : g.Paged N) (hk : k < N) {i : ℕ} (hi : i < pageWords) :
    fetch g word (g.pageAddr k + i * g.stride) = some (word (g.pageAddr k + i * g.stride)) := by
  have hword : (i + 1) * g.stride ≤ g.pageStep := Nat.mul_le_mul_right _ hi
  have hpage : (k + 1) * g.pageStep ≤ N * g.pageStep := Nat.mul_le_mul_right _ hk
  have hstop := hg.stop_eq
  refine if_pos ⟨by simp only [Region.pageAddr]; omega, ?_, ?_⟩
  · rw [Nat.add_mul, Nat.one_mul] at hword hpage
    simp only [Region.pageAddr] at hstop ⊢
    omega
  · have hsub : g.pageAddr k + i * g.stride - g.start = (k * pageWords + i) * g.stride := by
      simp only [Region.pageAddr, Region.pageStep, Nat.add_mul, Nat.mul_assoc]
      omega
    rw [hsub, Nat.mul_mod_left]

/-- The next word of a page, and the end of it. -/
theorem word_succ (g : Region) (k i : ℕ) :
    g.pageAddr k + i * g.stride + g.stride = g.pageAddr k + (i + 1) * g.stride := by
  rw [Nat.add_mul, Nat.one_mul, Nat.add_assoc]

theorem word_lt (hg : g.Paged N) {i : ℕ} :
    g.pageAddr k + i * g.stride < g.pageAddr k + g.pageStep ↔ i < pageWords := by
  rw [Nat.add_lt_add_iff_left]
  exact Nat.mul_lt_mul_right hg.stride_pos

theorem scanPage_eq (word : ℕ → Word) (hg : g.Paged N) (hk : k < N) (n : ℕ) :
    ∀ i : ℕ, i + n = pageWords →
    scanPage g word (g.pageAddr k + g.pageStep) (g.pageAddr k + i * g.stride) =
      some (AntTracer.scanPage word g.stride n (g.pageAddr k + i * g.stride)) := by
  induction n with
  | zero =>
    intro i hi
    rw [scanPage, if_neg (by rw [word_lt hg]; omega)]
    rfl
  | succ n ih =>
    intro i hi
    have hrest := ih (i + 1) (by omega)
    rw [← word_succ g k i] at hrest
    rw [scanPage, if_pos ((word_lt hg).2 (by omega)), fetch_eq hg hk (by omega),
      AntTracer.scanPage]
    simp only [Option.bind_eq_bind, Option.bind_some, hrest]
    split_ifs <;> rfl

theorem scanPages_eq (word : ℕ → Word) (hg : g.Paged N) (m : ℕ) :
    ∀ (n : ℕ) (b : Bounds), n + m = N →
    scanPages g word (g.pageAddr n) b =
      some (AntTracer.scanPages g word (m + 1) (g.pageAddr n) b) := by
  induction m with
  | zero =>
    intro n b hn
    obtain rfl : n = N := by omega
    rw [scanPages, AntTracer.scanPages, if_neg (by rw [hg.pageAddr_lt]; exact lt_irrefl _),
      if_neg (by rw [hg.pageAddr_lt]; exact lt_irrefl _)]
  | succ m ih =>
    intro n b hn
    have hlt : n < N := by omega
    have hpage := scanPage_eq word hg hlt pageWords 0 (Nat.zero_add _)
    rw [Nat.zero_mul, Nat.add_zero] at hpage
    rw [scanPages, AntTracer.scanPages, if_pos (hg.pageAddr_lt.2 hlt),
      if_pos (hg.pageAddr_lt.2 hlt), hpage, ← Region.pageAddr_succ]
    simp only [Option.bind_eq_bind, Option.bind_some]
    exact ih (n + 1) _ (by omega)

theorem findBounds_eq (hg : g.Paged N) :
    scanPages g word g.start Bounds.init = some (findBounds g word) := by
  have h := scanPages_eq word hg N 0 Bounds.init (Nat.zero_add N)
  rw [show g.pageAddr 0 = g.start by simp [Region.pageAddr]] at h
  rw [h, findBounds, hg.rounds_eq]

theorem backScan_eq (hg : g.Paged N) (hk : k < N) (n : ℕ) : n ≤ pageWords →
    backScan g word (g.pageAddr k) (g.pageAddr k + n * g.stride) =
      some (AntTracer.backScan g word (g.pageAddr k) n) := by
  have hpos := hg.stride_pos
  induction n with
  | zero =>
    intro _
    rw [backScan, if_neg (by omega), AntTracer.backScan, Nat.zero_mul, Nat.add_zero]
  | succ n ih =>
    intro hn
    have hlast : g.pageAddr k + (n + 1) * g.stride - g.stride = g.pageAddr k + n * g.stride := by
      rw [← word_succ, Nat.add_sub_cancel]
    rw [backScan, if_pos (by rw [← word_succ]; omega), hlast, fetch_eq hg hk (by omega),
      AntTracer.backScan]
    simp only [Option.bind_eq_bind, Option.bind_some, ih (by omega)]
    split_ifs <;> rfl

/-! ## The import -/

variable {σ : Type} {R : Reader σ} {importRecord : σ → Option σ}

/-- The reader's `importRecord` stays inside the buffer. -/
def Imports (R : Reader σ) (importRecord : σ → Option σ) : Prop :=
  ∀ s, (R.buf s).bufferIndex < bufferSize → importRecord s = some (R.importRecord s)

/-- **`importWord` stays inside the buffer**, whatever it holds. -/
theorem importWord_eq (hi : Imports R importRecord) (w : Word) (s : σ) :
    importWord R importRecord w s = some (AntTracer.importWord R w s) := by
  rw [importWord, AntTracer.importWord]
  by_cases hw : w &&& recordBit ≠ 0#32
  · rw [if_pos hw, if_pos hw]
    have hrec : (if (R.buf s).bufferIndex < bufferSize then importRecord s else some s) =
        some (if (R.buf s).bufferIndex < bufferSize then R.importRecord s else s) := by
      by_cases hlt : (R.buf s).bufferIndex < bufferSize
      · rw [if_pos hlt, if_pos hlt, hi s hlt]
      · rw [if_neg hlt, if_neg hlt]
    rw [hrec]
    simp only [Option.bind_eq_bind, Option.bind_some, store_eq (show 0 < bufferSize by decide)]
    split_ifs <;> rfl
  · rw [if_neg hw, if_neg hw]
    -- a word for which there is no room is left out
    by_cases hlt : (R.buf s).bufferIndex < bufferSize - 1
    · rw [if_pos hlt, if_pos hlt, store_eq (by omega)]
      rfl
    · rw [if_neg hlt, if_neg hlt]

theorem importPage_eq (hi : Imports R importRecord) (hg : g.Paged N) (hk : k < N) (n : ℕ) :
    ∀ (i : ℕ) (s : σ), i + n = pageWords →
    importPage R importRecord g (g.pageAddr k + g.pageStep) (g.pageAddr k + i * g.stride) s =
      some (AntTracer.importPage R g n (g.pageAddr k + i * g.stride) s) := by
  induction n with
  | zero =>
    intro i s hn
    rw [importPage, if_neg (by rw [word_lt hg]; omega)]
    rfl
  | succ n ih =>
    intro i s hn
    rw [importPage, if_pos ((word_lt hg).2 (by omega)), fetch_eq hg hk (by omega),
      AntTracer.importPage]
    simp only [Option.bind_eq_bind, Option.bind_some, importWord_eq hi]
    split_ifs
    · rfl
    · rw [word_succ]
      exact ih (i + 1) _ (by omega)

/-- The pages of `n` advances and one more, from `u` on. -/
def pagesOf (g : Region) (N u n : ℕ) : List ℕ :=
  (List.range (n + 1)).map fun i => g.pageAddr ((u + i) % N)

theorem pagesOf_succ (g : Region) (N u n : ℕ) :
    pagesOf g N u (n + 1) = g.pageAddr (u % N) :: pagesOf g N (u + 1) n := by
  rw [pagesOf, List.range_succ_eq_map, List.map_cons, List.map_map]
  refine congrArg _ (List.map_congr_left fun i _ => ?_)
  simp only [Function.comp_apply, Nat.succ_eq_add_one]
  rw [show u + (i + 1) = u + 1 + i by omega]

/-- **The walk over the pages ends** at the newest one: it takes less than a
lap. -/
theorem importPages_eq (hi : Imports R importRecord) (hg : g.Paged N) (n : ℕ) :
    ∀ (u page : ℕ) (s : σ), g.wrap page = g.pageAddr (u % N) → n < N → ∀ fuel, n < fuel →
    importPages R importRecord g (g.pageAddr ((u + n) % N)) page s =
      some (pagesOf g N u n, AntTracer.importPages R g (g.pageAddr ((u + n) % N)) fuel page s) := by
  have hpage : ∀ (u : ℕ) (s : σ),
      importPage R importRecord g (g.pageAddr (u % N) + g.pageStep) (g.pageAddr (u % N)) s =
        some (AntTracer.importPage R g pageWords (g.pageAddr (u % N)) s) := by
    intro u s
    have h := importPage_eq hi hg (Nat.mod_lt u hg.pos) pageWords 0 s (Nat.zero_add _)
    rwa [Nat.zero_mul, Nat.add_zero] at h
  induction n with
  | zero =>
    intro u page s hp _ fuel hf
    obtain ⟨f, rfl⟩ : ∃ f, fuel = f + 1 := ⟨fuel - 1, by omega⟩
    rw [importPages, AntTracer.importPages, hp, hpage]
    simp only [Option.bind_eq_bind, Option.bind_some, Nat.add_zero, if_true, importWord_eq hi]
    rfl
  | succ n ih =>
    intro u page s hp hn fuel hf
    obtain ⟨f, rfl⟩ : ∃ f, fuel = f + 1 := ⟨fuel - 1, by omega⟩
    -- the newest page is still to come, less than a lap away
    have hne := hg.pageAddr_ne (u := u) n.succ_pos hn
    rw [importPages, AntTracer.importPages, hp, hpage]
    simp only [Option.bind_eq_bind, Option.bind_some, if_neg hne]
    rw [show u + (n + 1) = u + 1 + n by omega,
      ih (u + 1) _ _ (hg.wrap_next u) (by omega) f (by omega), pagesOf_succ]
    rfl

end Scan

/-! ## The whole scan -/

/-- What a scan visits: the pages from the oldest to the newest, each of them
once; or none, if no page carries a sequence number above zero. -/
inductive Visits (g : Region) (N : ℕ) (word : ℕ → Word) : List ℕ → Prop
  | none (h : ∀ k < N, ∀ q, g.markOf word k = some q → q = 0) : Visits g N word []
  | pages {old new q q' : ℕ} {visited : List ℕ} (hold : old < N) (hnew : new < N)
    /- one page has the lowest number, one the highest -/
    (oldest : g.markOf word old = some q) (newest : g.markOf word new = some q')
    (between : ∀ k < N, ∀ p, g.markOf word k = some p → q ≤ p ∧ p ≤ q')
    /- the walk goes up from the one to the other, and over the end of the region if need be -/
    (eq : visited = (List.range ((new + N - old) % N + 1)).map fun i => g.pageAddr ((old + i) % N))
    (nodup : visited.Nodup)
    (mem_iff : ∀ k < N, g.pageAddr k ∈ visited ↔
      if old ≤ new then old ≤ k ∧ k ≤ new else old ≤ k ∨ k ≤ new) : Visits g N word visited

section Whole

variable {g : Region} {N : ℕ} {word : ℕ → Word}

/-- The way from one page to another, going up and around. -/
theorem add_mod_sub {old new : ℕ} (hold : old < N) (hnew : new < N) :
    (old + (new + N - old) % N) % N = new := by
  rw [Nat.add_mod_mod, show old + (new + N - old) = new + N by omega, Nat.add_mod_right,
    Nat.mod_eq_of_lt hnew]

theorem nodup_pagesOf (hg : g.Paged N) {u n : ℕ} (hn : n < N) : (pagesOf g N u n).Nodup := by
  induction n generalizing u with
  | zero => exact List.nodup_singleton _
  | succ n ih =>
    rw [pagesOf_succ]
    refine List.nodup_cons.2 ⟨fun hmem => ?_, ih (by omega)⟩
    obtain ⟨i, hi, heq⟩ := List.mem_map.1 hmem
    have hlt := List.mem_range.1 hi
    refine hg.pageAddr_ne (u := u) (n := i + 1) i.succ_pos (by omega) ?_
    rw [← heq, show u + (i + 1) = u + 1 + i by omega]

theorem mem_pagesOf (hg : g.Paged N) {old new k : ℕ} (hold : old < N) (hnew : new < N)
    (hk : k < N) : g.pageAddr k ∈ pagesOf g N old ((new + N - old) % N) ↔
      if old ≤ new then old ≤ k ∧ k ≤ new else old ≤ k ∨ k ≤ new := by
  have hmod : ∀ a, a < N + N → a % N = if a < N then a else a - N := by
    intro a ha
    split
    · exact Nat.mod_eq_of_lt ‹_›
    · rw [Nat.mod_eq_sub_mod (by omega), Nat.mod_eq_of_lt (by omega)]
  have hway := hmod (new + N - old) (by omega)
  simp only [pagesOf, List.mem_map, List.mem_range]
  constructor
  · rintro ⟨i, hi, heq⟩
    have hk' := hg.pageAddr_inj heq
    rw [hmod (old + i) (by split at hway <;> omega)] at hk'
    split_ifs at * <;> omega
  · intro h
    refine ⟨(k + N - old) % N, ?_, by rw [add_mod_sub hold hk]⟩
    rw [hway, hmod (k + N - old) (by omega)]
    split_ifs at * <;> omega

variable {σ : Type} {R : Reader σ} {importRecord : σ → Option σ}

/-- **The scan is safe, and ends**, whatever the flash holds. -/
theorem readFlash_eq (hi : Imports R importRecord) (hg : g.Paged N) (s : σ) :
    ∃ visited, readFlash R importRecord g s = some (visited, AntTracer.readFlash R g s) ∧
      Visits g N (R.word s) visited := by
  have hspans := findBounds_spans (R.word s) hg
  have hstart := hg.start_pos
  rw [readFlash, findBounds_eq hg, AntTracer.readFlash]
  simp only [Option.bind_eq_bind, Option.bind_some]
  rcases hspans.new with ⟨hq, hp⟩ | ⟨new, hnew, hmark, hp⟩
  · rw [if_neg (not_not.2 hp), if_neg (not_not.2 hp)]
    exact ⟨[], rfl, .none fun k hk q hq' => by have := hspans.le_newq k hk q hq'; omega⟩
  · have hne : (findBounds g (R.word s)).newp ≠ 0 := by
      rw [hp]
      simp only [Region.pageAddr]
      omega
    -- the newest page has a number, so there is one with the lowest as well
    obtain ⟨old, hold, hmark', hp'⟩ : ∃ k < N,
        g.markOf (R.word s) k = some (findBounds g (R.word s)).oldq ∧
          (findBounds g (R.word s)).oldp = g.pageAddr k := by
      rcases hspans.old with h | h
      · have h₁ := hspans.oldq_le new hnew _ hmark
        have h₂ := scanPage_lt _ _ _ hmark
        omega
      · exact h
    have hwrap : g.wrap (g.pageAddr old) = g.pageAddr (old % N) := by
      have := hg.pageAddr_lt.2 hold
      rw [Nat.mod_eq_of_lt hold]
      exact if_neg (by omega)
    have hway : (new + N - old) % N < N := Nat.mod_lt _ hg.pos
    have himport := importPages_eq hi hg _ old _ (importReset R s) hwrap hway g.rounds
      (by rw [hg.rounds_eq]; omega)
    rw [add_mod_sub hold hnew] at himport
    rw [if_pos hne, if_pos hne, hp, hp', himport]
    simp only [Option.bind_some]
    rw [backScan_eq hg hnew pageWords le_rfl]
    exact ⟨_, rfl, .pages hold hnew hmark' hmark
      (fun k hk q hq => ⟨hspans.oldq_le k hk q hq, hspans.le_newq k hk q hq⟩) rfl
      (nodup_pagesOf hg hway) fun k hk => mem_pagesOf hg hold hnew hk⟩

end Whole

end Checked

end AntTracer
