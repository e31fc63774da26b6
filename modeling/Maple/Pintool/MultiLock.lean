import Maple.Pintool.Epoch
import Maple.Pintool.Gate
import Maple.Pintool.Lockset

/-! The MultiLock detector of `pintool/multilock.cpp`. Its clocks follow thread
start and join only; every record is an epoch with the lockset of the access. -/
namespace Maple.Pintool
open Race

/-- `ELP`: epoch and lockset of an access. -/
abbrev Elp := Epoch × Lockset

/-- `ELPSet`: an unordered set; the list is in some order of iteration. -/
abbrev ElpSet := List Elp

def ElpSet.insert (els : ElpSet) (elp : Elp) : ElpSet :=
  if els.any (fun other => other.1 = elp.1 && other.2.isMatch elp.2) then els else elp :: els

/-- What `operator<` on `ELP` distinguishes. -/
structure InstKey where
  epoch : Epoch
  size : ℕ
  fold : Address
  deriving DecidableEq

def instKey (elp : Elp) : InstKey := ⟨elp.1, elp.2.set.size, elp.2.fold⟩

/-- `InstMap`: a map with equivalent keys identified. -/
abbrev InstMap := InstKey → Option InstId

def InstMap.insert (table : InstMap) (elp : Elp) (inst : InstId) : InstMap :=
  Function.update table (instKey elp) (some inst)

structure MultiLockMeta where
  racy : Bool := false
  writerElsMap : OrdMap ThreadId ElpSet := ∅
  readerElsMap : OrdMap ThreadId ElpSet := ∅
  writerInstTable : InstMap := fun _ => none
  readerInstTable : InstMap := fun _ => none
  raceInstSet : Std.ExtTreeSet InstId := ∅

namespace MultiLockMeta

/-- `writer_els_map[thd]`, where a missing entry is an empty set. -/
def writerEls (m : MultiLockMeta) (thdId : ThreadId) : ElpSet := m.writerElsMap[thdId]?.getD []
def readerEls (m : MultiLockMeta) (thdId : ThreadId) : ElpSet := m.readerElsMap[thdId]?.getD []

end MultiLockMeta

namespace MultiLock

/-- `lockset_map_[thd]` -/
def locksetOf (locksetMap : OrdMap ThreadId Lockset) (thdId : ThreadId) : Lockset :=
  locksetMap[thdId]?.getD {}

def processLock (b : DetectorBase (OrdMap ThreadId Lockset)) (curr : ThreadId) (addr : Address) :
    Option (DetectorBase (OrdMap ThreadId Lockset)) :=
  some { b with own := b.own.insert curr ((locksetOf b.own curr).add addr) }

def processUnlock (b : DetectorBase (OrdMap ThreadId Lockset)) (curr : ThreadId) (addr : Address) :
    Option (DetectorBase (OrdMap ThreadId Lockset)) :=
  some { b with own := b.own.insert curr ((locksetOf b.own curr).remove addr) }

def afterPthreadJoin (b : DetectorBase (OrdMap ThreadId Lockset)) (curr child : ThreadId) :
    Option (DetectorBase (OrdMap ThreadId Lockset)) := do
  let joined ← b.afterPthreadJoin curr child
  let currVc ← joined.currVcMap[curr]?
  return joined.setVc curr (currVc.increment curr)

/-- The test of both loops in `UpdateOnRead` that find a read redundant. -/
def skipsRead (currVc : VectorClock) (currLs : Lockset) (elp : Elp) : Bool :=
  elp.1.equal currVc && !elp.2.isSubsetOf currLs

/-- The test of the loop in `UpdateOnWrite` that finds a write redundant. -/
def skipsWrite (currVc : VectorClock) (currLs : Lockset) (elp : Elp) : Bool :=
  elp.1.equal currVc && elp.2.isSubsetOf currLs

/-- The test of the loops that eliminate records in favour of the new one. -/
def eliminates (currVc : VectorClock) (currLs : Lockset) (elp : Elp) : Bool :=
  elp.1.equal currVc && elp.2.isSupersetOf currLs

/-- A loop over the records that erases those to be eliminated. It erases the element
under its iterator and then reads and advances the iterator, which is undefined: a
run that comes there has no further states. -/
def eliminate (currVc : VectorClock) (currLs : Lockset) (els : ElpSet) : Option Unit :=
  if els.any (eliminates currVc currLs) then none else some ()

/-- The end of `UpdateOnRead`. -/
def recordRead (curr : ThreadId) (m : MultiLockMeta) (currVc : VectorClock) (currLs : Lockset)
    (inst : InstId) : MultiLockMeta :=
  let elp := (Epoch.make curr (currVc.getClock curr), currLs)
  { m with
    readerElsMap := m.readerElsMap.insert curr ((m.readerEls curr).insert elp)
    readerInstTable := m.readerInstTable.insert elp inst }

/-- The end of `UpdateOnWrite`. -/
def recordWrite (curr : ThreadId) (m : MultiLockMeta) (currVc : VectorClock) (currLs : Lockset)
    (inst : InstId) : MultiLockMeta :=
  let elp := (Epoch.make curr (currVc.getClock curr), currLs)
  { m with
    writerElsMap := m.writerElsMap.insert curr ((m.writerEls curr).insert elp)
    writerInstTable := m.writerInstTable.insert elp inst }

/-- The unit's metadata, and whether the access is redundant. -/
def updateOnRead (curr : ThreadId) (m : MultiLockMeta) (currVc : VectorClock) (currLs : Lockset)
    (inst : InstId) : Option (MultiLockMeta × Bool) :=
  if (m.readerEls curr).any (skipsRead currVc currLs) then some (m, true)
  else if (m.writerEls curr).any (skipsRead currVc currLs) then some (m, true)
  else do
    eliminate currVc currLs (m.readerEls curr)
    return (recordRead curr m currVc currLs inst, false)

def updateOnWrite (curr : ThreadId) (m : MultiLockMeta) (currVc : VectorClock) (currLs : Lockset)
    (inst : InstId) : Option (MultiLockMeta × Bool) :=
  if (m.writerEls curr).any (skipsWrite currVc currLs) then some (m, true)
  else do
    eliminate currVc currLs (m.readerEls curr)
    eliminate currVc currLs (m.writerEls curr)
    return (recordWrite curr m currVc currLs inst, false)

/-- Inner loop of the checks, over the records of all other threads: whether one
of them races, and the reports. -/
def checkEls (curr : ThreadId) (currVc : VectorClock) (currLs : Lockset) (table : InstMap)
    (report : ThreadId → InstId → RaceReport) : ElpSet → Option (Bool × List DbCall)
  | [] => some (false, [])
  | elp :: rest => do
    let (raced, calls) ← checkEls curr currVc currLs table report rest
    if !elp.1.happensBefore currVc && elp.2.isDisjoint currLs then
      if curr ≠ elp.1.tid ∧ currVc.getClock elp.1.tid < elp.1.clock then do
        let inst ← table (instKey elp)
        return (true, .createRace (report elp.1.tid inst) :: calls)
      else return (true, calls)
    else return (raced, calls)

/-- Outer loop of the checks. -/
def otherEls (curr : ThreadId) (elsMap : OrdMap ThreadId ElpSet) : ElpSet :=
  (elsMap.toList.filter fun entry => entry.1 ≠ curr).flatMap (·.2)

def processRead (b : DetectorBase (OrdMap ThreadId Lockset)) (curr : ThreadId) (iaddr : Address)
    (m : MultiLockMeta) (inst : InstId) : Option (MultiLockMeta × List DbCall) := do
  let currVc ← b.currVcMap[curr]?
  let currLs := locksetOf b.own curr
  let (m, isRedundant) ← updateOnRead curr m currVc currLs inst
  if isRedundant then return (m, [])
  else
    let (raced, calls) ← checkEls curr currVc currLs m.writerInstTable
      (fun thdId writerInst => ⟨iaddr, thdId, writerInst, .write, curr, inst, .read⟩)
      (otherEls curr m.writerElsMap)
    return ({ m with
        racy := m.racy || raced
        raceInstSet := trackInst b.trackRacyInst m.raceInstSet inst }, calls)

def processWrite (b : DetectorBase (OrdMap ThreadId Lockset)) (curr : ThreadId) (iaddr : Address)
    (m : MultiLockMeta) (inst : InstId) : Option (MultiLockMeta × List DbCall) := do
  let currVc ← b.currVcMap[curr]?
  let currLs := locksetOf b.own curr
  let (m, isRedundant) ← updateOnWrite curr m currVc currLs inst
  if isRedundant then return (m, [])
  else
    let (racedWriters, calls) ← checkEls curr currVc currLs m.writerInstTable
      (fun thdId writerInst => ⟨iaddr, thdId, writerInst, .write, curr, inst, .write⟩)
      (otherEls curr m.writerElsMap)
    let (racedReaders, moreCalls) ← checkEls curr currVc currLs m.readerInstTable
      (fun thdId readerInst => ⟨iaddr, thdId, readerInst, .read, curr, inst, .write⟩)
      (otherEls curr m.readerElsMap)
    return ({ m with
        racy := m.racy || racedWriters || racedReaders
        raceInstSet := trackInst b.trackRacyInst m.raceInstSet inst }, calls ++ moreCalls)

def processFree (b : DetectorBase (OrdMap ThreadId Lockset)) (m : MultiLockMeta) : List DbCall :=
  releaseInsts b.trackRacyInst m.racy m.raceInstSet

end MultiLock

def multiLock : Algorithm (OrdMap ThreadId Lockset) MultiLockMeta where
  newMeta := {}
  processLock := MultiLock.processLock
  processUnlock := MultiLock.processUnlock
  afterPthreadJoin := MultiLock.afterPthreadJoin
  beforeCall own _ _ := own
  gate := gate
  processRead := MultiLock.processRead
  processWrite := MultiLock.processWrite
  processFree := MultiLock.processFree

/-- The main thread reads under mutex 16, releases it, and reads again. -/
def rereadTrace : List Hook :=
  [.threadStart 1 invalidThdId, .threadStart 2 1, .afterPthreadMutexLock 1 16, .beforeMemRead 1 7 8 4,
    .beforePthreadMutexUnlock 1 16, .beforeMemRead 1 8 8 4, .afterPthreadMutexLock 2 16,
    .beforeMemWrite 2 9 8 4]

example : (Detector.run multiLock (start _ 4 false (.addRegion {} 8 4) ∅) rereadTrace).map
    (fun result => (metaAt result.1 {} 8).racy) = some false := by decide

/-- A second read under the same locks comes to erase the record of the first one. -/
example : Detector.run multiLock (start _ 4 false (.addRegion {} 8 4) ∅)
    [.threadStart 1 invalidThdId, .threadStart 2 1, .beforeMemRead 1 7 8 4, .beforeMemRead 1 8 8 4] = none := by
  decide

end Maple.Pintool
