import AntTracer.Library.Circular
import AntTracer.Library.Shared
import AntTracer.Record.Word

/-!
# The RTT buffers

The debug port is a pair of ring buffers that the debugging host reads and
writes while the target runs. The functions of `SEGGER_RTT.c` are given here
by their accesses to the shared buffer, in order: each read of an offset, each
byte that `memcpy` moves, each store of an offset. `UpHost` and `DownHost` are
what the host does in between, on the buffer it empties and on the one it
fills.
-/

namespace AntTracer

namespace Rtt

open Shared Shared.Code

/-! ## The source -/

/-- `SEGGER_RTT_MODE_NO_BLOCK_SKIP`. -/
abbrev noBlockSkip : Word := 0#32
/-- `SEGGER_RTT_MODE_NO_BLOCK_TRIM`. -/
abbrev noBlockTrim : Word := 1#32
/-- `SEGGER_RTT_MODE_BLOCK_IF_FIFO_FULL`. -/
abbrev blockIfFifoFull : Word := 2#32

/-- `SEGGER_RTT_RING_BUFFER`. -/
structure RingBuffer where
  pBuffer : ℕ → Byte
  sizeOfBuffer : ℕ
  wrOff : ℕ
  rdOff : ℕ
  flags : Word

/-- A ring buffer and the host at it: how far it is, the other side's offset
as it last read it, and the bytes it has taken out or put in. -/
structure Channel where
  ring : RingBuffer
  cursor : ℕ
  seen : ℕ
  log : List Byte

/-- A difference of two `unsigned`, both below `2 ^ 32`. -/
def sub32 (a b : ℕ) : ℕ := if b ≤ a then a - b else a + 2 ^ 32 - b

namespace Channel

/-- Store a byte. -/
def put (a : ℕ) (b : Byte) (s : Channel) : Channel :=
  { s with ring := { s.ring with pBuffer := Function.update s.ring.pBuffer a b } }

/-- `pRing->WrOff = w`. -/
def setWrOff (w : ℕ) (s : Channel) : Channel := { s with ring := { s.ring with wrOff := w } }

/-- `pRing->RdOff = r`. -/
def setRdOff (r : ℕ) (s : Channel) : Channel := { s with ring := { s.ring with rdOff := r } }

/-- `pRing->Flags = f`. -/
def setFlags (f : Word) (s : Channel) : Channel := { s with ring := { s.ring with flags := f } }

end Channel

/-- `memcpy` to the buffer. -/
def memcpyTo (a : ℕ) : List Byte → Code Channel Unit
  | [] => pure ()
  | b :: l => do
    store (Channel.put a b)
    memcpyTo (a + 1) l

/-- `memcpy` from the buffer. -/
def memcpyFrom (a : ℕ) : ℕ → Code Channel (List Byte)
  | 0 => pure []
  | n + 1 => do
    let b ← load fun s => s.ring.pBuffer a
    let l ← memcpyFrom (a + 1) n
    pure (b :: l)

/-- The loop of `_WriteBlocking`, as many times as it is given rounds. There
is no result when it is still waiting then. -/
def writeBlockingFrom (wrOff written : ℕ) (data : List Byte) : ℕ → Code Channel (Option ℕ)
  | 0 => pure none
  | rounds + 1 => do
    let rdOff ← load (·.ring.rdOff)
    let size ← load (·.ring.sizeOfBuffer)
    let n := if wrOff < rdOff then rdOff - wrOff - 1 else size - (wrOff - rdOff + 1)
    let n := min n (size - wrOff)
    let n := min n data.length
    memcpyTo wrOff (data.take n)
    let w := if wrOff + n = size then 0 else wrOff + n
    store (Channel.setWrOff w)
    if data.drop n = [] then pure (some (written + n))
    else writeBlockingFrom w (written + n) (data.drop n) rounds

/-- `_WriteBlocking`. -/
def writeBlocking (rounds : ℕ) (data : List Byte) : Code Channel (Option ℕ) := do
  let wrOff ← load (·.ring.wrOff)
  writeBlockingFrom wrOff 0 data rounds

/-- `_WriteNoCheck`. -/
def writeNoCheck (data : List Byte) : Code Channel Unit := do
  let wrOff ← load (·.ring.wrOff)
  let size ← load (·.ring.sizeOfBuffer)
  let rem := size - wrOff
  if data.length < rem then do
    memcpyTo wrOff data
    store (Channel.setWrOff (wrOff + data.length))
  else do
    -- around the end
    memcpyTo wrOff (data.take rem)
    memcpyTo 0 (data.drop rem)
    store (Channel.setWrOff (data.length - rem))

/-- `_GetAvailWriteSpace`. -/
def getAvailWriteSpace : Code Channel ℕ := do
  let rdOff ← load (·.ring.rdOff)
  let wrOff ← load (·.ring.wrOff)
  let size ← load (·.ring.sizeOfBuffer)
  pure (if rdOff ≤ wrOff then size - 1 - wrOff + rdOff else rdOff - wrOff - 1)

/-- The second half of `SEGGER_RTT_ReadNoLock`, from the remaining items on,
with what the first half has read. -/
def readRest (wrOff rdOff bufferSize : ℕ) (read : List Byte) : Code Channel (List Byte) := do
  let n := min (sub32 wrOff rdOff) bufferSize
  let l ← memcpyFrom rdOff n
  let read := read ++ l
  if read ≠ [] then do
    store (Channel.setRdOff (rdOff + n))
    pure read
  else pure read

/-- `SEGGER_RTT_ReadNoLock`, with the bytes that it puts in the buffer it is
called with. -/
def readNoLock (bufferSize : ℕ) : Code Channel (List Byte) := do
  let rdOff ← load (·.ring.rdOff)
  let wrOff ← load (·.ring.wrOff)
  if wrOff < rdOff then do
    -- up to the end of the buffer
    let size ← load (·.ring.sizeOfBuffer)
    let n := min (size - rdOff) bufferSize
    let l ← memcpyFrom rdOff n
    readRest wrOff (if rdOff + n = size then 0 else rdOff + n) (bufferSize - n) l
  else readRest wrOff rdOff bufferSize []

/-- `SEGGER_RTT_WriteSkipNoLock`. -/
def writeSkipNoLock (data : List Byte) : Code Channel ℕ := do
  let rdOff ← load (·.ring.rdOff)
  let wrOff ← load (·.ring.wrOff)
  let size ← load (·.ring.sizeOfBuffer)
  if rdOff ≤ wrOff then
    let avail := size - 1 - wrOff
    if data.length ≤ avail then do
      memcpyTo wrOff data
      store (Channel.setWrOff (wrOff + data.length))
      pure 1
    else
      let avail := avail + rdOff
      if data.length ≤ avail then
        let rem := size - wrOff
        if data.length < rem then do
          memcpyTo wrOff data
          store (Channel.setWrOff (wrOff + data.length))
          pure 1
        else do
          memcpyTo wrOff (data.take rem)
          memcpyTo 0 (data.drop rem)
          store (Channel.setWrOff (data.length - rem))
          pure 1
      else pure 0
  else
    let avail := rdOff - wrOff - 1
    if data.length ≤ avail then do
      memcpyTo wrOff data
      store (Channel.setWrOff (wrOff + data.length))
      pure 1
    else pure 0

/-- `SEGGER_RTT_WriteNoLock`. There is no result while it waits. -/
def writeNoLock (rounds : ℕ) (data : List Byte) : Code Channel (Option ℕ) := do
  let flags ← load (·.ring.flags)
  if flags = noBlockSkip then do
    let avail ← getAvailWriteSpace
    if avail < data.length then pure (some 0)
    else do
      writeNoCheck data
      pure (some data.length)
  else if flags = noBlockTrim then do
    let avail ← getAvailWriteSpace
    let status := if avail < data.length then avail else data.length
    writeNoCheck (data.take status)
    pure (some status)
  else if flags = blockIfFifoFull then writeBlocking rounds data
  else pure (some 0)

/-- `SEGGER_RTT_GetKey`, on channel 0. -/
def getKey : Code Channel ℤ := do
  let l ← readNoLock 1
  match l with
  | [c] => pure c.toNat
  | _ => pure (-1)

/-- `SEGGER_RTT_WaitKey`, as many times as it is given rounds. -/
def waitKey : ℕ → Code Channel (Option ℤ)
  | 0 => pure none
  | rounds + 1 => do
    let r ← getKey
    if r < 0 then waitKey rounds else pure (some r)

/-- `SEGGER_RTT_HasKey`, on channel 0. -/
def hasKey : Code Channel Bool := do
  let rdOff ← load (·.ring.rdOff)
  let wrOff ← load (·.ring.wrOff)
  pure (rdOff ≠ wrOff)

/-- `SEGGER_RTT_HasData`. -/
def hasData : Code Channel ℕ := do
  let v ← load (·.ring.wrOff)
  let rdOff ← load (·.ring.rdOff)
  pure (sub32 v rdOff)

/-- A buffer 0 as `_DoInit` sets it up, and a host that has done nothing. -/
def doInit (size : ℕ) : Channel where
  ring := ⟨fun _ => 0#8, size, 0, 0, noBlockSkip⟩
  cursor := 0
  seen := 0
  log := []

/-! ## The host -/

/-- The offset after another one. -/
def next (size a : ℕ) : ℕ := if a + 1 = size then 0 else a + 1

/-- The host at the buffer that it empties: it reads the write offset, takes
the next byte up to there, or stores how far it is. -/
inductive UpHost : Channel → Channel → Prop where
  | look {s : Channel} : UpHost s { s with seen := s.ring.wrOff }
  | take {s : Channel} (h : s.cursor ≠ s.seen) : UpHost s { s with
      cursor := next s.ring.sizeOfBuffer s.cursor,
      log := s.log ++ [s.ring.pBuffer s.cursor] }
  | store {s : Channel} : UpHost s (s.setRdOff s.cursor)

/-- The host at the buffer that it fills: it reads the read offset, puts a
byte in if there is room up to there, or stores how far it is. -/
inductive DownHost : Channel → Channel → Prop where
  | look {s : Channel} : DownHost s { s with seen := s.ring.rdOff }
  | put {s : Channel} (b : Byte) (h : next s.ring.sizeOfBuffer s.cursor ≠ s.seen) :
      DownHost s { s.put s.cursor b with
        cursor := next s.ring.sizeOfBuffer s.cursor, log := s.log ++ [b] }
  | store {s : Channel} : DownHost s (s.setWrOff s.cursor)

theorem next_eq {N c : ℕ} (hc : c < N) : next N c = (c + 1) % N := by
  rw [next]
  split
  · rename_i heq
    rw [heq, Nat.mod_self]
  · rw [Nat.mod_eq_of_lt (by omega)]

theorem next_lt {N c : ℕ} (hc : c < N) : next N c < N := by
  rw [next_eq hc]
  exact Nat.mod_lt _ (by omega)

end Rtt

end AntTracer
