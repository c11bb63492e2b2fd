import AntTracer.App.Device

/-!
# The store

The state machine of `store.c` around the log: requests to save the
configuration or to store a part of a software update, `StoreSuperLoop`, the
start up (`ConfigInitialize` and the state `INIT0`), and the command
`store list`. The configuration has a flash page of its own, with 32 slots.
-/

namespace AntTracer

namespace App

/-! ## State -/

/-- `opFlag`: what is to be stored. -/
structure OpFlags where
  /-- `OF_CONFIG` -/
  config : Bool
  /-- `OF_SW_UPDATE` -/
  swUpdate : Bool
  /-- `OF_SW_CHUNK` -/
  swChunk : Bool
  /-- `OF_SW_EXEC` -/
  swExec : Bool
  deriving DecidableEq

/-- The states of `StoreSuperLoop`. -/
inductive State
  | init0 | idle | writing | config0 | config1 | config2 | config3 | suHdr0 | suData0 | suExec0
  deriving DecidableEq

/-- A copy of `Config` taken to be saved: history, no part of the program. -/
structure Save where
  config : Config
  /-- how many requests there had been -/
  requests : ℕ
  /-- how many flash writes had been performed -/
  writes : ℕ

/-- The variables of `store.c` and `Config`. -/
structure Store where
  log : Log
  /-- `Config` -/
  config : Config
  opFlag : OpFlags
  configSaveTimer : Word
  configSaving : Bool
  state : State
  savedState : State
  /-- the time since boot -/
  tod0 : Word
  /-- history: the calls of `StoreConfiguration` -/
  requests : ℕ
  /-- history: the copies taken -/
  saves : List Save
  /-- history: the copy of the last save that completed -/
  saved : Option Config
  /-- history: what the union in `staging` would hold if nothing were read -/
  asked : Union
  /-- history: the records handed to `wrGo`, as they were asked for -/
  wanted : List (List Word)

/-- A software update part waits to be stored. -/
def OpFlags.su (f : OpFlags) : Bool := f.swUpdate || f.swChunk || f.swExec

/-! ## Requests -/

/-- `Future`. -/
def future (secs : Word) (s : Store) : Word := s.tod0 + secs

/-- `TempusTimeout` of the save timer. -/
def timeout (s : Store) : Prop := s.configSaveTimer ≤ s.tod0

instance (s : Store) : Decidable (timeout s) := inferInstanceAs (Decidable (_ ≤ _))

/-- `StoreConfiguration`. -/
def storeConfiguration (force : Bool) (s : Store) : Store :=
  { s with
    configSaveTimer := future (if force then 0#32 else 5#32) s
    opFlag := { s.opFlag with config := true }
    configSaving := true
    requests := s.requests + 1 }

/-- `StoreConfigurationIsDone`. -/
def storeConfigurationIsDone (s : Store) : Bool := !s.configSaving

/-- Put a request into the union. -/
def setUnion (f : Union → Union) (s : Store) : Store :=
  { s with
    log := { s.log with staging := { s.log.staging with su := f s.log.staging.su } }
    asked := f (if s.opFlag.su then s.asked else s.log.staging.su) }

/-- `StoreSoftwareUpdateInfo`. -/
def storeSoftwareUpdateInfo (sui : SuInfo) (s : Store) : Store :=
  { setUnion (fun u => u.setSui sui) s with opFlag := { s.opFlag with swUpdate := true } }

/-- `StoreSoftwareUpdateChunk`. -/
def storeSoftwareUpdateChunk (sud : SuData) (s : Store) : Store :=
  { setUnion (fun u => u.setSud sud) s with opFlag := { s.opFlag with swChunk := true } }

/-- `StoreSoftwareUpdateExecute`. -/
def storeSoftwareUpdateExecute (sux : SuExec) (s : Store) : Store :=
  { setUnion (fun u => u.setSux sux) s with opFlag := { s.opFlag with swExec := true } }

/-! ## Reading -/

/-- `StoreCallbackConfiguration`. -/
def storeCallbackConfiguration (cf : Config) (s : Store) : Store :=
  if s.config.confSequence < cf.confSequence ∧ cf.confCRC = configCRC cf then
    storeConfiguration true { s with config := cf }
  else s

/-- `importRecord`. Of the handlers, only the one for `OF_CONFIG` does
something. -/
def Store.importRecord (ofConfig : Bool) (s : Store) : Store :=
  let ty := recordType (s.log.buf.buffer 0)
  let s := { s with log := App.importRecord s.log }
  if s.log.buf.bufferLimit = 0 then s
  else if ty = rtConfig ∧ ofConfig = true then
    if s.log.staging.config.confCRC = configCRC s.log.staging.config then
      storeCallbackConfiguration s.log.staging.config s
    else s
  else s

/-- The reader of the store. -/
def storeReader (ofConfig : Bool) : Reader Store where
  buf s := s.log.buf
  setBuf s b := { s with log := { s.log with buf := b } }
  word s := s.log.flash
  importRecord := Store.importRecord ofConfig
  buf_setBuf _ _ := rfl
  setBuf_setBuf _ _ _ := rfl
  setBuf_buf _ := rfl
  word_setBuf _ _ := rfl

/-- `store list`: `readFlash` without handlers. -/
def storeList (s : Store) : Store := (readFlash (storeReader false) storeRegion s).1

/-- The address of a slot of the configuration page. -/
abbrev slotAddr (i : ℕ) : ℕ := configStart + i * configWords

/-- The slots of the configuration page. -/
abbrev configSlots : ℕ := 32

/-- What a slot reads as. -/
def slotConfig (flash : ℕ → Word) (i : ℕ) : Config := ⟨fun j => flash (slotAddr i + j)⟩

/-- The test of `ConfigInitialize` on a slot. -/
def slotNewer (cp c : Config) : Prop :=
  cp.confArray 0 ≠ erasedWord ∧ cp.confCRC = configCRC cp ∧ c.confSequence < cp.confSequence

instance (cp c : Config) : Decidable (slotNewer cp c) :=
  inferInstanceAs (Decidable (_ ∧ _ ∧ _))

/-- `ConfigInitialize`. -/
def configInitialize (s : Store) : Store :=
  { s with
    config := (List.range configSlots).foldl
      (fun c i => if slotNewer (slotConfig s.log.flash i) c then slotConfig s.log.flash i else c)
      (configDefault s.config) }

/-! ## `StoreSuperLoop` -/

/-- The next free slot of the configuration page. -/
def freeSlot (flash : ℕ → Word) : Option ℕ :=
  (List.range configSlots).find? fun i => decide (flash (slotAddr i) = erasedWord)

/-- The store when `wrGo` has been called: it waits, or is where the saved
state says. -/
def handed (r : Log × Bool) (s : Store) : Store :=
  { s with log := r.1, state := if r.2 then .writing else s.savedState }

/-- The label `doWrite`, and the state `WRITING`: wait, or go on. -/
def doWrite (again : Store → Store × Bool) (r : Log × Bool) (s : Store) : Store × Bool :=
  if r.2 then (handed r s, true) else again (handed r s)

/-- The state `INIT0`. -/
def init0 (s : Store) : Store :=
  let r := readFlash (storeReader true) storeRegion s
  { r.1 with log := setUpWrite r.2.1 r.2.2 r.1.log, state := .idle }

/-- `CONFIG0` up to the search for a free slot. -/
def copyConfig (s : Store) : Store :=
  let config := s.config.setSequence (s.config.confSequence + 1#16)
  let copy := config.setCRC (configCRC config)
  { s with
    config := config
    log := { s.log with staging := { s.log.staging with config := copy } }
    saves := s.saves ++ [Save.mk copy s.requests s.log.written.length] }

/-- Write the copy into a slot. -/
def writeSlot (i : ℕ) (s : Store) : Store :=
  { s with log := flashWrite (slotAddr i) .config configWords s.log, state := .config3 }

/-- The state `CONFIG0`. -/
def config0 (again : Store → Store × Bool) (s : Store) : Store × Bool :=
  let s := copyConfig s
  match freeSlot s.log.flash with
  | some i => (writeSlot i s, true)
  | none =>
    -- save a copy in the circular flash area, just in case
    let fs := configFields s.log.staging.config
    doWrite again (appendRecord rtConfig fs s.log)
      { s with savedState := .config1, wanted := s.wanted ++ [recordWords rtConfig fs s.log.buf] }

/-- The parts of a software update. -/
inductive Part
  | hdr | data | exec
  deriving DecidableEq

/-- The record type of a part. -/
def Part.type : Part → Word
  | .hdr => rtSuHdr
  | .data => rtSuData
  | .exec => rtSuExec

/-- The fields of a part, from the union. -/
def Part.fields (u : Union) : Part → List (ℕ × Word)
  | .hdr => suInfoFields u.sui
  | .data => suDataFields u.sud
  | .exec => suExecFields u.sux

/-- The state that stores a part: format it and write it. -/
def storePart (p : Part) (again : Store → Store × Bool) (s : Store) : Store × Bool :=
  doWrite again (appendRecord p.type (p.fields s.log.staging.su) s.log)
    { s with
      savedState := .idle
      wanted := s.wanted ++ [recordWords p.type (p.fields s.asked) s.log.buf] }

/-- The state `SU_HDR_0`. -/
def suHdr0 : (Store → Store × Bool) → Store → Store × Bool := storePart .hdr

/-- The state `SU_DATA_0`. -/
def suData0 : (Store → Store × Bool) → Store → Store × Bool := storePart .data

/-- The state `SU_EXEC_0`. -/
def suExec0 : (Store → Store × Bool) → Store → Store × Bool := storePart .exec

/-- The state `IDLE`. -/
def idle (again : Store → Store × Bool) (s : Store) : Store × Bool :=
  if s.opFlag.config = true ∧ timeout s then
    config0 again { s with opFlag := { s.opFlag with config := false }, state := .config0 }
  else if s.opFlag.swUpdate = true then
    suHdr0 again { s with opFlag := { s.opFlag with swUpdate := false }, state := .suHdr0 }
  else if s.opFlag.swChunk = true then
    suData0 again { s with opFlag := { s.opFlag with swChunk := false }, state := .suData0 }
  else if s.opFlag.swExec = true then
    suExec0 again { s with opFlag := { s.opFlag with swExec := false }, state := .suExec0 }
  else (s, false)

/-- `StoreSuperLoop`, going to `again` at most so often. -/
def storeLoop : ℕ → Store → Store × Bool
  | 0, s => (s, false)
  | n + 1, s =>
    match s.state with
    | .init0 => (init0 s, false)
    | .idle => idle (storeLoop n) s
    | .config0 => config0 (storeLoop n) s
    | .config1 => ({ s with log := flashErase configStart s.log, state := .config2 }, true)
    | .config2 => if ¬ s.log.flashComplete = true then (s, false) else (writeSlot 0 s, true)
    | .config3 =>
      if ¬ s.log.flashComplete = true then (s, false)
      else ({ s with
        configSaving := false
        state := .idle
        saved := s.saves.getLast?.map Save.config }, true)
    | .suHdr0 => suHdr0 (storeLoop n) s
    | .suData0 => suData0 (storeLoop n) s
    | .suExec0 => suExec0 (storeLoop n) s
    | .writing =>
      if ¬ s.log.flashComplete = true then (s, false)
      else doWrite (storeLoop n) (wrGo s.log) s

/-- `StoreSuperLoop`: each round but the last two clears a flag. -/
def storeSuperLoop (s : Store) : Store × Bool := storeLoop 7 s

/-! ## Start up and events -/

/-- The power is lost: RAM is as the C start-up code leaves it. -/
def powerOff (s : Store) : Store :=
  { log := powerLoss s.log
    config := .zero
    opFlag := ⟨false, false, false, false⟩
    configSaveTimer := 0#32
    configSaving := false
    state := .init0
    savedState := .init0
    tod0 := 0#32
    requests := 0
    saves := []
    saved := none
    asked := Staging.init.su
    wanted := s.wanted }

/-- The store on this flash, before any boot. -/
def Store.off (flash : ℕ → Word) : Store :=
  powerOff ⟨Log.off flash, .zero, ⟨false, false, false, false⟩, 0#32, false, .init0, .init0,
    0#32, 0, [], none, Staging.init.su, []⟩

/-- `main` up to the first `StoreSuperLoop`. -/
def startUp (s : Store) : Store := configInitialize (powerOff s)

/-- A boot: start up, and `INIT0`. -/
def Store.boot (s : Store) : Store := (storeSuperLoop (startUp s)).1

/-- What happens to the store. -/
inductive StoreEvent
  /-- a pass of the super loop -/
  | loop
  /-- the soft device works, or reports -/
  | device (e : SdEvent)
  /-- time goes by -/
  | tick (secs : Word)
  /-- fields of `Config` change; nobody touches the first word -/
  | change (c : Config)
  /-- `ConfigDefault` -/
  | factory
  /-- `StoreConfiguration` -/
  | save (force : Bool)
  /-- `StoreSoftwareUpdateInfo` -/
  | info (sui : SuInfo)
  /-- `StoreSoftwareUpdateChunk` -/
  | chunk (sud : SuData)
  /-- `StoreSoftwareUpdateExecute` -/
  | exec (sux : SuExec)

/-- A step of the store. -/
def storeStep (s : Store) : StoreEvent → Store
  | .loop => (storeSuperLoop s).1
  | .device e => { s with log := sdEvent s.log e }
  | .tick secs => { s with tod0 := s.tod0 + secs }
  | .change c => { s with config := ⟨Function.update c.confArray 0 (s.config.confArray 0)⟩ }
  | .factory => { s with config := configDefault s.config }
  | .save force => storeConfiguration force s
  | .info sui => storeSoftwareUpdateInfo sui s
  | .chunk sud => storeSoftwareUpdateChunk sud s
  | .exec sux => storeSoftwareUpdateExecute sux s

end App

end AntTracer
