import AntTracer.Library.Runs
import AntTracer.Misc.ByteOrder

/-!
# The packet ring

The radio writes each packet into `packets[packetWr]` by DMA, the interrupt
handler moves `packetWr` on when the CRC is good and a slot is left, and the
super loop takes packets off the other end. Both sides share `packetCnt`.
The loop gives the count back before it reads its slot, so between those two
points the ring looks one slot emptier than it is.
-/

namespace AntTracer

namespace App

/-! ## The program -/

/-- `packet_t`, less its padding byte. -/
structure Packet where
  time : Word
  data : Fin 13 → Byte
  rssi : Byte
  crcOk : Bool
  deriving DecidableEq

/-- A slot nothing was written to. -/
def Packet.zero : Packet := ⟨0#32, fun _ => 0#8, 0#8, false⟩

/-- `PACKETS`, that is `PACKET_MEMORY / sizeof (packet_t)`. -/
abbrev packetSlots : ℕ := 32 * 1024 / 20

/-- What `TraceSuperLoop` prints of a packet. -/
structure Line where
  time : Word
  elapsed : Word
  rssi : Byte
  txType : Word
  devType : Word
  devNumber : Word
  aflag : Byte
  payload : List Byte
  deriving DecidableEq

/-- `TACHY_UNIT`. -/
abbrev tachyUnit : Word := 64000000#32

/-- `TACHY2US`. -/
def tachy2us (t : Word) : Word := t / ((tachyUnit + 999999#32) / 1000000#32)

/-- The line printed for a packet, after one printed for `lastTime`. -/
def Packet.line (lastTime : Word) (p : Packet) : Line :=
  let addr := Types.oqGet32 (fun i => p.data (Fin.ofNat 13 i)) 0
  let txType := (addr >>> 24) &&& 0x0f#32
  let txTypeX := (addr >>> 28) &&& 0x0f#32
  { time := tachy2us p.time
    elapsed := tachy2us p.time - lastTime
    rssi := p.rssi
    txType := (txTypeX <<< 4) ||| txType
    devType := (addr >>> 16) &&& 0xff#32
    devNumber := addr &&& 0xffff#32
    aflag := p.data 4
    payload := [p.data 5, p.data 6, p.data 7, p.data 8, p.data 9, p.data 10, p.data 11, p.data 12] }

/-- Where `TraceSuperLoop` is. -/
inductive Loop
  /-- at the test of `packetCnt` -/
  | test
  /-- past it, the count not yet given back -/
  | take
  /-- the count given back, `packetRd` not yet read -/
  | slot
  /-- reading slot `pkt`, `k` fields into it, with what was read so far -/
  | read (pkt k : ℕ) (got : Packet)

/-- The variables of the ring, the DMA pointer and the output. -/
structure Tracer where
  packets : ℕ → Packet
  packetWr : ℕ
  packetRd : ℕ
  packetCnt : ℕ
  packetCrcError : ℕ
  /-- the slot `PACKETPTR` points to -/
  packetPtr : ℕ
  loop : Loop
  lastTime : Word
  /-- the packets read, and the lines printed for them -/
  printed : List Packet
  lines : List Line
  /-- history: the packets the interrupt moved `packetWr` on for -/
  accepted : List Packet

/-- After `radioStart`. -/
def Tracer.boot : Tracer :=
  ⟨fun _ => .zero, 0, 0, 0, 0, 0, .test, 0#32, [], [], []⟩

/-- `x++; if (x >= ARRAY_SIZE(packets)) x = 0`. -/
def nextSlot (x : ℕ) : ℕ := if packetSlots ≤ x + 1 then 0 else x + 1

/-- The radio writes a byte of a payload. -/
def dma (i : Fin 13) (b : Byte) (s : Tracer) : Tracer :=
  { s with packets := fun a =>
      if a = s.packetPtr then { s.packets a with data := Function.update (s.packets a).data i b }
      else s.packets a }

/-- The status `radioInterrupt` stores with a payload. -/
def stamp (crcOk : Bool) (time : Word) (rssi : Word) (p : Packet) : Packet :=
  { p with crcOk := crcOk, time := time, rssi := (-rssi).setWidth 8 }

/-- Its first part: store the status in the slot, count CRC errors. -/
def storeStatus (crcOk : Bool) (time rssi : Word) (s : Tracer) : Tracer :=
  { s with
    packets := fun a => if a = s.packetWr then stamp crcOk time rssi (s.packets a) else s.packets a
    packetCrcError := if crcOk then s.packetCrcError else s.packetCrcError + 1 }

/-- Its second part: move on to the next slot. -/
def acceptPacket (s : Tracer) : Tracer :=
  { s with
    packetWr := nextSlot s.packetWr
    packetPtr := nextSlot s.packetWr
    packetCnt := s.packetCnt + 1
    accepted := s.accepted ++ [s.packets s.packetWr] }

/-- `radioInterrupt`, with what it reads of `CRCSTATUS`, the clock and
`RSSISAMPLE`. -/
def radioInterrupt (crcOk : Bool) (time rssi : Word) (s : Tracer) : Tracer :=
  let s := storeStatus crcOk time rssi s
  if crcOk ∧ s.packetCnt < packetSlots - 1 then acceptPacket s else s

theorem radioInterrupt_accept {s : Tracer} (time rssi : Word) (h : s.packetCnt < packetSlots - 1) :
    radioInterrupt true time rssi s = acceptPacket (storeStatus true time rssi s) :=
  if_pos ⟨rfl, h⟩

/-- The fields `TraceSuperLoop` reads: the time, the RSSI and the bytes of
the payload. -/
abbrev packetReads : ℕ := 15

/-- Read `k` of them. -/
def readField (k : ℕ) (p got : Packet) : Packet :=
  match k with
  | 0 => { got with time := p.time }
  | 1 => { got with rssi := p.rssi }
  | i + 2 => { got with data := fun j => if j.val = i then p.data j else got.data j }

/-- A step of `TraceSuperLoop`. -/
def traceSuperLoop (s : Tracer) : Tracer :=
  match s.loop with
  | .test => if 0 < s.packetCnt then { s with loop := .take } else s
  | .take => { s with packetCnt := s.packetCnt - 1, loop := .slot }
  | .slot => { s with packetRd := nextSlot s.packetRd, loop := .read s.packetRd 0 .zero }
  | .read pkt k got =>
    if k < packetReads then
      { s with loop := .read pkt (k + 1) (readField k (s.packets pkt) got) }
    else
      { s with
        loop := .test
        printed := s.printed ++ [got]
        lines := s.lines ++ [got.line s.lastTime]
        lastTime := tachy2us got.time }

/-- What can happen next. -/
inductive Event
  /-- the radio writes a byte of a payload -/
  | dma (i : Fin 13) (b : Byte)
  /-- a payload is complete -/
  | interrupt (crcOk : Bool) (time rssi : Word)
  /-- the super loop goes on -/
  | loop

/-- One step of the ring. -/
def step (s : Tracer) : Event → Tracer
  | .dma i b => dma i b s
  | .interrupt crcOk time rssi => radioInterrupt crcOk time rssi s
  | .loop => traceSuperLoop s

/-! ## What is in the ring -/

/-- The slot being printed, from the moment its count is given back. -/
def Tracer.printing (s : Tracer) : Option ℕ :=
  match s.loop with
  | .test | .take => none
  | .slot => some s.packetRd
  | .read pkt _ _ => some pkt

/-- The oldest slot whose packet is not printed. -/
def Tracer.first (s : Tracer) : ℕ := s.printing.getD s.packetRd

/-- The slots that hold packets not printed. -/
def Tracer.held (s : Tracer) : ℕ := s.packetCnt + if s.printing.isSome then 1 else 0

/-- What a reader keeps of a packet: its good CRC was tested before. -/
def Packet.shown (p : Packet) : Packet := { p with crcOk := false }

/-- The packets of `n` slots, from slot `x` on. -/
def slots (packets : ℕ → Packet) (x n : ℕ) : List Packet :=
  (List.range n).map fun i => packets ((x + i) % packetSlots)

/-- The packets in the ring, oldest first. -/
def Tracer.pending (s : Tracer) : List Packet := slots s.packets s.first s.held

/-- The lines printed for packets, one after the other. -/
def linesFrom : Word → List Packet → List Line
  | _, [] => []
  | t, p :: ps => p.line t :: linesFrom (tachy2us p.time) ps

/-- **What the ring delivers.** The packets accepted are those printed, in
order, each once and unmodified, and then those in the ring. -/
structure Delivered (s : Tracer) : Prop where
  /-- the packets read -/
  packets : s.accepted.map Packet.shown = s.printed ++ s.pending.map Packet.shown
  /-- and what is printed of them -/
  lines : s.lines = linesFrom 0#32 s.printed

/-- The slot being printed is not the one the radio writes to. -/
def Apart (s : Tracer) : Prop := s.printing ≠ some s.packetPtr

/-- The step is not an interrupt with a good CRC while a packet is being
printed and two slots are free. -/
def SpareSlot (s : Tracer) : Event → Prop
  | .interrupt crcOk _ _ => ¬ (crcOk = true ∧ s.printing.isSome ∧ s.packetCnt = packetSlots - 2)
  | _ => True

/-! ## Slots -/

theorem nextSlot_eq {x : ℕ} (h : x < packetSlots) : nextSlot x = (x + 1) % packetSlots := by
  simp only [nextSlot, packetSlots] at *
  split <;> omega

theorem slots_congr {f g : ℕ → Packet} {x n : ℕ}
    (h : ∀ i < n, f ((x + i) % packetSlots) = g ((x + i) % packetSlots)) :
    slots f x n = slots g x n :=
  List.map_congr_left fun i hi => h i (List.mem_range.1 hi)

theorem slots_succ (f : ℕ → Packet) (x n : ℕ) :
    slots f x (n + 1) = slots f x n ++ [f ((x + n) % packetSlots)] := by
  simp [slots, List.range_succ]

theorem slots_cons (f : ℕ → Packet) {x : ℕ} (h : x < packetSlots) (n : ℕ) :
    slots f x (n + 1) = f x :: slots f ((x + 1) % packetSlots) n := by
  rw [slots, List.range_succ_eq_map, List.map_cons, List.map_map, Nat.add_zero, Nat.mod_eq_of_lt h]
  congr 1
  refine List.map_congr_left fun i _ => ?_
  simp only [Function.comp_apply, Nat.succ_eq_add_one]
  congr 1
  rw [Nat.mod_add_mod]
  congr 1
  omega

/-! ## Reading a packet -/

/-- What `k` reads of a packet give. -/
def readSoFar (p : Packet) : ℕ → Packet
  | 0 => .zero
  | k + 1 => readField k p (readSoFar p k)

theorem readSoFar_data (p : Packet) (k : ℕ) :
    readSoFar p (k + 2) =
      ⟨p.time, fun j => if j.val < k then p.data j else 0#8, p.rssi, false⟩ := by
  induction k with
  | zero => simp [readSoFar, readField, Packet.zero]
  | succ k ih =>
    rw [readSoFar, ih, readField]
    congr 1
    funext j
    by_cases h : j.val = k
    · simp [h]
    · simp only [h, if_false]
      split <;> split <;> first | rfl | omega

/-- All reads give the packet. -/
theorem readSoFar_all (p : Packet) : readSoFar p packetReads = p.shown := by
  rw [show packetReads = 13 + 2 from rfl, readSoFar_data]
  simp [Packet.shown]

theorem linesFrom_append (t : Word) (ps : List Packet) (p : Packet) :
    linesFrom t (ps ++ [p]) =
      linesFrom t ps ++ [p.line ((ps.getLast?.map fun p => tachy2us p.time).getD t)] := by
  induction ps generalizing t with
  | nil => rfl
  | cons q ps ih =>
    rw [List.cons_append, linesFrom, ih, linesFrom, List.cons_append]
    cases ps with
    | nil => rfl
    | cons q' ps => rw [List.getLast?_cons_cons, List.getLast?_cons]; rfl

/-! ## The invariant -/

/-- What holds between two steps, so long as no packet is accepted into the
slot being printed. -/
structure Inv (s : Tracer) : Prop where
  /-- the radio writes where the next packet is accepted -/
  ptr : s.packetPtr = s.packetWr
  /-- the oldest packet is in a slot -/
  first_lt : s.first < packetSlots
  /-- the spare slot follows the packets held -/
  wr : s.packetWr = (s.first + s.held) % packetSlots
  /-- and is spare -/
  held_lt : s.held < packetSlots
  /-- past the test there is a packet -/
  cnt_pos : s.loop = .take → 0 < s.packetCnt
  /-- `packetRd` is past the slot being read, which gave what was read -/
  reading : ∀ pkt k got, s.loop = .read pkt k got →
    s.packetRd = (pkt + 1) % packetSlots ∧ k ≤ packetReads ∧ got = readSoFar (s.packets pkt) k
  /-- the time printed last -/
  last : s.lastTime = (s.printed.getLast?.map fun p => tachy2us p.time).getD 0#32
  /-- nothing was lost so far -/
  delivered : Delivered s

theorem Inv.boot : Inv .boot := by
  refine ⟨rfl, by decide, rfl, by decide, nofun, nofun, rfl, rfl, rfl⟩

/-- The spare slot holds no packet. -/
theorem Inv.spare {s : Tracer} (hs : Inv s) {i : ℕ} (hi : i < s.held) :
    (s.first + i) % packetSlots ≠ s.packetWr := by
  have h₁ := hs.first_lt
  have h₂ := hs.held_lt
  rw [hs.wr]
  simp only [packetSlots] at *
  omega

theorem Inv.apart {s : Tracer} (hs : Inv s) : Apart s := by
  intro h
  have hheld : 0 < s.held := by simp [Tracer.held, h]
  have hfirst : s.first = s.packetPtr := by simp [Tracer.first, h]
  have := hs.spare hheld
  rw [Nat.add_zero, Nat.mod_eq_of_lt hs.first_lt] at this
  exact this (hfirst.trans hs.ptr)

/-- **Writing to the spare slot** changes nothing that is held. -/
theorem Inv.write {s : Tracer} (hs : Inv s) {f : ℕ → Packet} (c : ℕ)
    (hf : ∀ a, a ≠ s.packetWr → f a = s.packets a) :
    Inv { s with packets := f, packetCrcError := c } := by
  refine ⟨hs.ptr, hs.first_lt, hs.wr, hs.held_lt, hs.cnt_pos, fun pkt k got h => ?_, hs.last, ?_,
    hs.delivered.lines⟩
  · obtain ⟨h₁, h₂, h₃⟩ := hs.reading pkt k got h
    have hne : pkt ≠ s.packetWr := fun he => hs.apart (by
      rw [hs.ptr, ← he, Tracer.printing, show s.loop = .read pkt k got from h])
    exact ⟨h₁, h₂, by rw [h₃]; simp only [hf pkt hne]⟩
  · refine hs.delivered.packets.trans
      (congrArg (fun l : List Packet => s.printed ++ l.map Packet.shown) ?_)
    exact slots_congr fun i hi => (hf _ (hs.spare hi)).symm

@[simp] theorem printing_acceptPacket (s : Tracer) : (acceptPacket s).printing = s.printing := rfl

@[simp] theorem first_acceptPacket (s : Tracer) : (acceptPacket s).first = s.first := rfl

@[simp] theorem held_acceptPacket (s : Tracer) : (acceptPacket s).held = s.held + 1 := by
  rw [Tracer.held, printing_acceptPacket, Tracer.held, ← Nat.add_right_comm]
  rfl

/-- **Accepting a packet** while there is a spare slot after the next one. -/
theorem Inv.accept {s : Tracer} (hs : Inv s) (h : s.held + 1 < packetSlots) :
    Inv (acceptPacket s) := by
  have hwr := hs.wr
  have hlt : s.packetWr < packetSlots := by rw [hwr]; exact Nat.mod_lt _ (by decide)
  refine ⟨rfl, hs.first_lt, ?_, by rw [held_acceptPacket]; exact h, fun _ => Nat.succ_pos _,
    hs.reading, hs.last, ?_, hs.delivered.lines⟩
  · rw [held_acceptPacket, first_acceptPacket]
    change nextSlot s.packetWr = _
    rw [nextSlot_eq hlt, hwr, Nat.mod_add_mod, Nat.add_assoc]
  · rw [Tracer.pending, held_acceptPacket, first_acceptPacket]
    change (s.accepted ++ [s.packets s.packetWr]).map Packet.shown =
      s.printed ++ (slots s.packets s.first (s.held + 1)).map Packet.shown
    rw [slots_succ, ← hwr, List.map_append, List.map_append, hs.delivered.packets,
      List.append_assoc]
    rfl

/-- The loop goes on without giving a slot back. -/
theorem Inv.goes {s : Tracer} (hs : Inv s) {cnt rd : ℕ} {l : Loop}
    (hfirst : ({ s with packetCnt := cnt, packetRd := rd, loop := l } : Tracer).first = s.first)
    (hheld : ({ s with packetCnt := cnt, packetRd := rd, loop := l } : Tracer).held = s.held)
    (hcnt : l = .take → 0 < cnt)
    (hread : ∀ pkt k got, l = .read pkt k got →
      rd = (pkt + 1) % packetSlots ∧ k ≤ packetReads ∧ got = readSoFar (s.packets pkt) k) :
    Inv { s with packetCnt := cnt, packetRd := rd, loop := l } := by
  refine ⟨hs.ptr, by rw [hfirst]; exact hs.first_lt, ?_, by rw [hheld]; exact hs.held_lt, hcnt,
    hread, hs.last, ?_, hs.delivered.lines⟩
  · rw [hfirst, hheld]
    exact hs.wr
  · rw [Tracer.pending, hfirst, hheld]
    exact hs.delivered.packets

/-- The loop prints a packet and gives its slot back. -/
theorem Inv.print {s : Tracer} (hs : Inv s) {pkt k : ℕ} {got : Packet}
    (hl : s.loop = .read pkt k got) (hk : ¬ k < packetReads) :
    Inv { s with
      loop := .test
      printed := s.printed ++ [got]
      lines := s.lines ++ [got.line s.lastTime]
      lastTime := tachy2us got.time } := by
  obtain ⟨hrd, hle, hgot⟩ := hs.reading pkt k got hl
  obtain rfl : k = packetReads := by omega
  rw [readSoFar_all] at hgot
  have hfirst : s.first = pkt := by simp [Tracer.first, Tracer.printing, hl]
  have hheld : s.held = s.packetCnt + 1 := by simp [Tracer.held, Tracer.printing, hl]
  have hpkt := hs.first_lt
  have hwr := hs.wr
  have hlt := hs.held_lt
  have hpackets := hs.delivered.packets
  rw [hfirst] at hpkt
  rw [hfirst, hheld] at hwr
  rw [hheld] at hlt
  rw [Tracer.pending, hfirst, hheld, slots_cons _ hpkt, ← hrd, List.map_cons, ← hgot] at hpackets
  refine ⟨hs.ptr, ?_, ?_, ?_, nofun, nofun, ?_, ?_, ?_⟩
  · exact hrd ▸ Nat.mod_lt _ (by decide)
  · change s.packetWr = (s.packetRd + (s.packetCnt + 0)) % packetSlots
    rw [hwr, hrd, Nat.mod_add_mod]
    congr 1
    omega
  · change s.packetCnt + 0 < packetSlots
    omega
  · simp
  · change _ = (s.printed ++ [got]) ++ (slots s.packets s.packetRd s.packetCnt).map Packet.shown
    rw [List.append_assoc]
    exact hpackets
  · change s.lines ++ [got.line s.lastTime] = _
    rw [linesFrom_append, hs.delivered.lines, hs.last]

/-- A step of the loop keeps the invariant. -/
theorem Inv.loop {s : Tracer} (hs : Inv s) : Inv (traceSuperLoop s) := by
  unfold traceSuperLoop
  cases hl : s.loop with
  | test =>
    by_cases hcnt : 0 < s.packetCnt
    · simp only [if_pos hcnt]
      exact hs.goes (by simp [Tracer.first, Tracer.printing, hl])
        (by simp [Tracer.held, Tracer.printing, hl]) (fun _ => hcnt) nofun
    · simp only [if_neg hcnt]
      exact hs
  | take =>
    have hcnt := hs.cnt_pos hl
    exact hs.goes (by simp [Tracer.first, Tracer.printing, hl])
      (by simp only [Tracer.held, Tracer.printing, hl]; simp; omega) nofun nofun
  | slot =>
    have hfirst : s.first = s.packetRd := by simp [Tracer.first, Tracer.printing, hl]
    refine hs.goes (by simp [Tracer.first, Tracer.printing, hl])
      (by simp [Tracer.held, Tracer.printing, hl]) nofun fun pkt k got h => ?_
    obtain ⟨rfl, rfl, rfl⟩ := Loop.read.inj h
    exact ⟨nextSlot_eq (hfirst ▸ hs.first_lt), Nat.zero_le _, rfl⟩
  | read pkt k got =>
    obtain ⟨hrd, hk, hgot⟩ := hs.reading pkt k got hl
    by_cases hlt : k < packetReads
    · simp only [if_pos hlt]
      refine hs.goes (by simp [Tracer.first, Tracer.printing, hl])
        (by simp [Tracer.held, Tracer.printing, hl]) nofun fun pkt' k' got' h => ?_
      obtain ⟨rfl, rfl, rfl⟩ := Loop.read.inj h
      exact ⟨hrd, hlt, by rw [hgot, readSoFar]⟩
    · simp only [if_neg hlt]
      exact hs.print hl hlt

theorem Inv.step {s : Tracer} (hs : Inv s) {e : Event} (he : SpareSlot s e) : Inv (step s e) := by
  cases e with
  | dma i b => exact hs.write _ fun a ha => if_neg (hs.ptr ▸ ha)
  | loop => exact hs.loop
  | interrupt crcOk time rssi =>
    have hw : Inv (storeStatus crcOk time rssi s) := hs.write _ fun a ha => if_neg ha
    change Inv (radioInterrupt crcOk time rssi s)
    rw [radioInterrupt]
    split
    · next hacc =>
      refine hw.accept ?_
      change s.held + 1 < packetSlots
      -- the count leaves room for the packet being printed
      have hcnt : s.packetCnt < packetSlots - 1 := hacc.2
      have hspare : ¬ (crcOk = true ∧ s.printing.isSome ∧ s.packetCnt = packetSlots - 2) := he
      unfold Tracer.held
      by_cases hp : s.printing.isSome = true
      · rw [if_pos hp]
        have : s.packetCnt ≠ packetSlots - 2 := fun h => hspare ⟨hacc.1, hp, h⟩
        omega
      · rw [if_neg hp]
        omega
    · exact hw

/-- **The step that goes wrong.** The packet accepted then leaves the radio
writing to the slot being printed. -/
theorem not_apart_of_full {s : Tracer} (hs : Inv s) {e : Event} (he : ¬ SpareSlot s e) :
    ¬ Apart (App.step s e) := by
  cases e with
  | dma i b => exact absurd trivial he
  | loop => exact absurd trivial he
  | interrupt crcOk time rssi =>
    obtain ⟨hcrc, hprint, hcnt⟩ := not_not.1 he
    obtain ⟨p, hp⟩ := Option.isSome_iff_exists.1 hprint
    have hfirst : s.first = p := by simp [Tracer.first, hp]
    have hheld : s.held = s.packetCnt + 1 := by simp [Tracer.held, hp]
    have hlt := hs.first_lt
    have hwr := hs.wr
    rw [hfirst] at hlt
    rw [hfirst, hheld, hcnt] at hwr
    have hacc : crcOk = true ∧ (storeStatus crcOk time rssi s).packetCnt < packetSlots - 1 :=
      ⟨hcrc, lt_of_eq_of_lt hcnt (by decide)⟩
    intro h
    rw [App.step, radioInterrupt, if_pos hacc] at h
    refine h (hp.trans ?_)
    have hnext : nextSlot s.packetWr = p := by
      rw [nextSlot_eq (by rw [hwr]; exact Nat.mod_lt _ (by decide)), hwr]
      simp only [packetSlots] at *
      omega
    exact congrArg some hnext.symm

/-! ## Runs -/

/-- **The ring delivers every packet, and the radio keeps out of the slot
being printed, just when no packet is accepted into that slot**: no
interrupt with a good CRC comes between the loop's giving the count back and
its last read of the slot while the count is `PACKETS - 2`. -/
theorem delivered_iff (es : List Event) :
    Runs.Throughout step (fun s => Delivered s ∧ Apart s) .boot es ↔
      Runs.Each step SpareSlot .boot es := by
  have hexact : ∀ s e, Inv s → (Apart (step s e) ↔ SpareSlot s e) := fun s e hs =>
    ⟨fun h => by_contra fun he => not_apart_of_full hs he h, fun he => (hs.step he).apart⟩
  have hstep : ∀ s e, Inv s → SpareSlot s e → Inv (step s e) := fun _ _ hs he => hs.step he
  constructor
  · exact fun h => (Runs.throughout_iff_each hstep hexact Inv.boot Inv.boot.apart).1
      (h.mono fun _ h => h.2)
  · exact fun h => (Runs.throughout_of_each hstep Inv.boot h).mono
      fun _ hs => ⟨hs.delivered, hs.apart⟩

/-- Left alone, the loop reads the slot. -/
theorem run_reads {s : Tracer} {pkt : ℕ} (hl : s.loop = .read pkt 0 .zero) {k : ℕ}
    (hk : k ≤ packetReads) : Runs.run step s (List.replicate k .loop) =
      { s with loop := .read pkt k (readSoFar (s.packets pkt) k) } := by
  induction k with
  | zero => exact (congrArg (fun l => { s with loop := l }) hl : s = _)
  | succ k ih =>
    rw [List.replicate_succ', Runs.run_append, ih (by omega)]
    simp only [Runs.run_cons, Runs.run_nil, step, traceSuperLoop]
    rw [if_pos (by omega), readSoFar]

/-- And prints what is in it. -/
theorem run_print {s : Tracer} {pkt : ℕ} (hl : s.loop = .read pkt 0 .zero) :
    (Runs.run step s (List.replicate (packetReads + 1) .loop)).printed =
        s.printed ++ [(s.packets pkt).shown] ∧
      (Runs.run step s (List.replicate (packetReads + 1) .loop)).accepted = s.accepted := by
  rw [List.replicate_succ', Runs.run_append, run_reads hl le_rfl, readSoFar_all]
  exact ⟨rfl, rfl⟩

/-- A packet of zeros with a good CRC. -/
abbrev good : Event := .interrupt true 0#32 0#32

/-- **The ring fills up and one packet more comes** just after the loop gave
the count back; the radio then writes the byte `1` of the next payload. -/
def overrun : List Event :=
  List.replicate (packetSlots - 1) good ++ [.loop, .loop, good, .loop, .dma 5 1#8]

/-- Packets come while the loop does nothing. -/
theorem run_good {k : ℕ} (hk : k < packetSlots) :
    ∃ f l, Runs.run step .boot (List.replicate k good) =
      { Tracer.boot with
        packets := f, packetWr := k, packetPtr := k, packetCnt := k, accepted := l } ∧
      (∀ a, (f a).data 5 = 0#8) ∧ ∀ p ∈ l, p.data 5 = 0#8 := by
  induction k with
  | zero => exact ⟨_, _, rfl, fun _ => rfl, nofun⟩
  | succ k ih =>
    obtain ⟨f, l, hrun, hf, hl⟩ := ih (by omega)
    rw [List.replicate_succ', Runs.run_append, hrun]
    have hnext : nextSlot k = k + 1 := if_neg (by omega)
    have hdata : ∀ a, ((if a = k then stamp true 0#32 0#32 (f a) else f a).data 5) = 0#8 := by
      intro a
      split <;> exact hf a
    refine ⟨fun a => if a = k then stamp true 0#32 0#32 (f a) else f a,
      l ++ [stamp true 0#32 0#32 (f k)], ?_, hdata, fun p hp => ?_⟩
    · rw [Runs.run_cons, Runs.run_nil, step, radioInterrupt_accept _ _ (by simp only; omega)]
      simp only [acceptPacket, storeStatus, hnext, if_true]
    · rcases List.mem_append.1 hp with hp | hp
      · exact hl p hp
      · obtain rfl := List.mem_singleton.1 hp
        exact hf k

/-- **The ring does not deliver every packet intact**: the packet printed
after that has the byte of the next payload. -/
theorem not_delivered : ¬ Apart (Runs.run step .boot overrun) ∧
    ¬ Delivered
      (Runs.run step .boot (overrun ++ List.replicate (packetReads + 1) .loop)) := by
  obtain ⟨f, l, hrun, hf, hl⟩ := run_good (k := packetSlots - 1) (by decide)
  have hnext : nextSlot (packetSlots - 1) = 0 := by decide
  obtain ⟨s, hs, hloop, hptr, hdata, hprinted, haccepted⟩ :
      ∃ s, Runs.run step .boot overrun = s ∧ s.loop = .read 0 0 .zero ∧ s.packetPtr = 0 ∧
        (s.packets 0).data 5 = 1#8 ∧ s.printed = [] ∧
        s.accepted = l ++ [stamp true 0#32 0#32 (f (packetSlots - 1))] := by
    refine ⟨_, rfl, ?_⟩
    rw [overrun, Runs.run_append, hrun]
    simp only [Runs.run_cons, Runs.run_nil, step]
    generalize hs₀ : ({ Tracer.boot with
      packets := f, packetWr := packetSlots - 1, packetPtr := packetSlots - 1
      packetCnt := packetSlots - 1, accepted := l } : Tracer) = s₀
    have htake : traceSuperLoop (traceSuperLoop s₀) =
        { s₀ with packetCnt := packetSlots - 2, loop := .slot } := by
      rw [← hs₀]
      rfl
    rw [htake, radioInterrupt_accept _ _ (by simp only; decide), ← hs₀]
    simp only [acceptPacket, storeStatus, hnext, if_true]
    refine ⟨rfl, rfl, ?_, rfl, rfl⟩
    simp [dma, traceSuperLoop]
  rw [Runs.run_append, hs]
  refine ⟨fun h => h ?_, fun h => ?_⟩
  · rw [Tracer.printing, hloop, hptr]
  · obtain ⟨hprint, hacc⟩ := run_print hloop
    have hfirst := h.packets
    rw [hprint, hacc, hprinted, haccepted] at hfirst
    -- the first packet accepted has the byte `0`, the one printed the byte `1`
    have hzero : ∀ p ∈ (l ++ [stamp true 0#32 0#32 (f (packetSlots - 1))]).map Packet.shown,
        p.data 5 = 0#8 := by
      intro p hp
      obtain ⟨q, hq, rfl⟩ := List.mem_map.1 hp
      rcases List.mem_append.1 hq with hq | hq
      · exact hl q hq
      · obtain rfl := List.mem_singleton.1 hq
        exact hf _
    have hone := hzero (s.packets 0).shown (by rw [hfirst]; simp)
    exact absurd (hdata.symm.trans hone) (by decide)

end App

end AntTracer
