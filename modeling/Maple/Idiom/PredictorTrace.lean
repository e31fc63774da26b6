import Maple.Idiom.Observers
import Maple.Idiom.PairUpdate
import Maple.Idiom.Prediction

/-! Traces of `idiom/predictor_new.cc` with its meta data, the frees and the recent accesses of
the complex idioms. Accesses of memory are taken unit by unit, behind the test for shared
instructions; a wait is an unlock and a lock with the calls on the condition between them. -/
namespace Maple.Idiom.Predictor

/-- A `Meta` object; `acc_histo` stands under its id until the object is freed. -/
structure Meta where
  id : MetaId
  type : MetaType

structure Entry where
  thdClk : ℕ
  accSum : Option ℕ
  vc : VectorClock
  ls : LockSet
  metaId : MetaId

structure RecentInfo where
  entryVec : List Entry := []
  rawEntryIndex : OrdMap MetaId ℕ := ∅

structure Config where
  ptrs : Pointers
  complexIdioms : Bool
  unitSize : Address

inductive Happening where
  | access (access : Access)
  | lock (t : ThreadId) (addr : Address)
  | unlock (t : ThreadId) (addr : Address)

def happenings : SyncEvent → List Happening
  | .addLock curr addr => [.lock curr addr]
  | .removeLock curr addr => [.unlock curr addr]
  | _ => []

/-- A call of `ProcessAccSumUpdate`, the summary it returns, and the access it is about as a
place in the history. -/
structure Call where
  place : Option ℕ
  dynAcc : DynAcc
  accSum : ℕ

/-- The last three members are not the predictor's: what has happened, the last access of each
thread to each meta, and the calls so far. -/
structure State extends PredictorNew where
  atomicInstSet : List InstId := []
  metaTable : OrdMap Address Meta := ∅
  nextMeta : MetaId := 0
  riTable : OrdMap ThreadId RecentInfo := ∅
  history : List Happening := []
  lastOf : MetaId → ThreadId → Option ℕ := fun _ _ => none
  calls : List Call := []

namespace State

def recentInfo (s : State) (t : ThreadId) : RecentInfo := s.riTable[t]?.getD {}

def summarise (c : Config) (s : State) (dynAcc : DynAcc) : Option (State × ℕ) := do
  let (base, accSum) ← s.toPredictorNew.processAccSumUpdate c.ptrs s.atomicInstSet.contains dynAcc
  return ({ s with
    toPredictorNew := base
    calls := s.calls ++ [⟨s.lastOf dynAcc.metaId dynAcc.thdId, dynAcc, accSum⟩] }, accSum)

/-- The entry is pushed and becomes the raw entry of the meta. -/
def processRecentInfoUpdate (s : State) (currThdId : ThreadId) (currThdClk : ℕ) (currVc : VectorClock)
    (currLs : LockSet) (metaId : MetaId) : State :=
  let ri := s.recentInfo currThdId
  let pushed : RecentInfo :=
    { entryVec := ri.entryVec ++ [⟨currThdClk, none, currVc, currLs, metaId⟩]
      rawEntryIndex := ri.rawEntryIndex.insert metaId ri.entryVec.length }
  { s with riTable := s.riTable.insert currThdId pushed }

def processRecentInfoMaturize (s : State) (accSum : ℕ) : Option State := do
  let sum ← s.accSums[accSum]?
  let ri := s.recentInfo sum.thdId
  match ri.rawEntryIndex[sum.metaId]? with
  | none => return s
  | some riIndex => do
    let entry ← ri.entryVec[riIndex]?
    debugAssert (entry.accSum = none)
    let matured : RecentInfo := { ri with entryVec := ri.entryVec.set riIndex { entry with accSum := some accSum } }
    return { s with riTable := s.riTable.insert sum.thdId matured }

/-- A last access is summarised, and the summary given to its entry. -/
def passLast (c : Config) (s : State) (dynAcc : DynAcc) (currLs : Option LockSet) : Option State := do
  let (s, accSum) ← s.summarise c { dynAcc with fls := dynAcc.fls.updateLastFlag dynAcc.ls currLs }
  if c.complexIdioms then s.processRecentInfoMaturize accSum else return s

/-- The new access becomes the last one of its thread. -/
def record (c : Config) (s : State) (dynAcc : DynAcc) : State :=
  let s := if c.complexIdioms then
      s.processRecentInfoUpdate dynAcc.thdId dynAcc.thdClk dynAcc.vc dynAcc.ls dynAcc.metaId
    else s
  { s with
    toPredictorNew := s.toPredictorNew.setLastDynAcc dynAcc
    history := s.history ++ [.access dynAcc.access]
    lastOf := fun m t => if m = dynAcc.metaId ∧ t = dynAcc.thdId then some s.history.length else s.lastOf m t }

def processiRootEvent (c : Config) (s : State) (currThdId : ThreadId) (currThdClk : ℕ) (type : IRootEventType)
    (inst : InstId) (metaId : MetaId) : Option State := do
  let currVc ← s.sync.currVcMap[currThdId]?
  let currLs ← s.sync.currLsMap[currThdId]?
  let histo ← s.accHistos[metaId]?
  let last := histo.lastDynAccTable[currThdId]?
  let passed ← match last with
    | none => some s
    | some dynAcc => s.passLast c dynAcc (some currLs)
  return passed.record c ⟨metaId, currThdId, currThdClk, type, inst, currVc, currLs,
    ({} : FLockSet).updateFirstFlag ((last.map (·.ls)).getD ∅) currLs⟩

/-- The loop of `ProcessFree`. -/
def flush (c : Config) (s : State) (metaId : MetaId) : Option State :=
  (s.accHisto metaId).lastDynAccTable.toList.foldlM (fun s entry => s.passLast c entry.2 none) s

def processFree (c : Config) (s : State) (metaId : MetaId) : Option State :=
  if metaId ∈ s.accHistos then do
    let flushed ← s.flush c metaId
    let base ← flushed.toPredictorNew.processAccSumPairUpdate metaId
    return { flushed with toPredictorNew := { base with accHistos := base.accHistos.erase metaId } }
  else some s

/-- `new Meta`, with an empty access history. -/
def newMeta (s : State) (iaddr : Address) (type : MetaType) : State × MetaId :=
  ({ s with
      accHistos := s.accHistos.insert s.nextMeta {}
      metaTable := s.metaTable.insert iaddr ⟨s.nextMeta, type⟩
      nextMeta := s.nextMeta + 1 }, s.nextMeta)

/-- `none` is the null pointer. -/
def getMemMeta (s : State) (iaddr : Address) : State × Option MetaId :=
  match s.metaTable[iaddr]? with
  | none => (s.newMeta iaddr .mem).map id some
  | some m => match m.type with
    | .mem => (s, some m.id)
    | .mutex => (s, none)

def getMutexMeta (c : Config) (s : State) (iaddr : Address) : Option (State × MetaId) :=
  match s.metaTable[iaddr]? with
  | none => some (s.newMeta iaddr .mutex)
  | some m => match m.type with
    | .mem => (s.processFree c m.id).map fun freed => freed.newMeta iaddr .mutex
    | .mutex => some (s, m.id)

/-- An event on the clocks or the lock sets of the threads. -/
def onSync (s : State) (e : SyncEvent) : Option State := do
  let sync ← s.sync.step e
  return { s with
    toPredictorNew := { s.toPredictorNew with sync }
    history := s.history ++ happenings e }

/-- One round of the loop of `FreeAddrRegion`. -/
def freeUnit (c : Config) (s : State) (iaddr : Address) : Option State := do
  let cleared : State := { s with
    toPredictorNew := { s.toPredictorNew with
      sync := { s.sync with
        condMetaTable := s.sync.condMetaTable.erase iaddr
        barrierMetaTable := s.sync.barrierMetaTable.erase iaddr } } }
  match s.metaTable[iaddr]? with
  | none => return cleared
  | some m => do
    let freed ← cleared.processFree c m.id
    return { freed with metaTable := freed.metaTable.erase iaddr }

end State

inductive Event where
  | memRead (curr : ThreadId) (clk : ℕ) (inst : InstId) (iaddr : Address)
  | memWrite (curr : ThreadId) (clk : ℕ) (inst : InstId) (iaddr : Address)
  | atomicInst (inst : InstId)
  | mutexLock (curr : ThreadId) (clk : ℕ) (inst : InstId) (addr : Address)
  | mutexUnlock (curr : ThreadId) (clk : ℕ) (inst : InstId) (addr : Address)
  | sync (e : SyncEvent)
  | free (units : List Address)

namespace State

def mem (c : Config) (s : State) (curr : ThreadId) (clk : ℕ) (type : IRootEventType) (inst : InstId)
    (iaddr : Address) : Option State :=
  match s.getMemMeta iaddr with
  | (_, none) => some s
  | (found, some m) => found.processiRootEvent c curr clk type inst m

def mutexLock (c : Config) (s : State) (curr : ThreadId) (clk : ℕ) (inst : InstId) (addr : Address) : Option State := do
  debugAssert (unitDownAlign addr c.unitSize = addr)
  let (found, m) ← s.getMutexMeta c addr
  let processed ← found.processiRootEvent c curr clk .mutexLock inst m
  processed.onSync (.addLock curr addr)

def mutexUnlock (c : Config) (s : State) (curr : ThreadId) (clk : ℕ) (inst : InstId) (addr : Address) :
    Option State := do
  debugAssert (unitDownAlign addr c.unitSize = addr)
  let (found, m) ← s.getMutexMeta c addr
  let removed ← found.onSync (.removeLock curr addr)
  removed.processiRootEvent c curr clk .mutexUnlock inst m

def step (c : Config) (s : State) : Event → Option State
  | .memRead curr clk inst iaddr => s.mem c curr clk .memRead inst iaddr
  | .memWrite curr clk inst iaddr => s.mem c curr clk .memWrite inst iaddr
  | .atomicInst inst => some { s with atomicInstSet := inst :: s.atomicInstSet }
  | .mutexLock curr clk inst addr => s.mutexLock c curr clk inst addr
  | .mutexUnlock curr clk inst addr => s.mutexUnlock c curr clk inst addr
  | .sync e => s.onSync e
  | .free units => units.foldlM (freeUnit c) s

/-- `ProgramExit` up to the predictions. -/
def programExit (c : Config) (s : State) : Option State :=
  s.metaTable.toList.foldlM (fun s entry => s.processFree c entry.2.id) s

/-- A thread starts once. -/
def Allows (s : State) : Event → Prop
  | .sync e => s.sync.Allows e
  | _ => True

instance (s : State) (e : Event) : Decidable (s.Allows e) := by
  unfold Allows
  split <;> infer_instance

end State
end Maple.Idiom.Predictor
