import Maple.Pintool.MultiLockExact

/-! The Eraser detector of `pintool/eraser.cpp`. A unit keeps the lockset of its last
write and those of the last read of each thread; clocks play no part. -/
namespace Maple.Pintool
open Race

/-- `TLP`, a thread and its lockset at an access. -/
structure Tlp where
  first : ThreadId := 0
  second : Lockset := {}

structure EraserMeta where
  racy : Bool := false
  writerLockset : Tlp := {}
  writerInst : Option InstId := none
  readerLockset : OrdMap ThreadId Tlp := ∅
  readerInstTable : OrdMap ThreadId InstId := ∅
  raceInstSet : Std.ExtTreeSet InstId := ∅

namespace Eraser

def processLock (b : DetectorBase (OrdMap ThreadId Lockset)) (curr : ThreadId) (addr : Address) :
    Option (DetectorBase (OrdMap ThreadId Lockset)) :=
  some { b with own := b.own.insert curr ((MultiLock.locksetOf b.own curr).add addr) }

def processUnlock (b : DetectorBase (OrdMap ThreadId Lockset)) (curr : ThreadId) (addr : Address) :
    Option (DetectorBase (OrdMap ThreadId Lockset)) :=
  some { b with own := b.own.insert curr ((MultiLock.locksetOf b.own curr).remove addr) }

/-- `if (tlp.first != curr && tlp.second.IsDisjoint(curr_ls) && inst != NULL)` with its body. -/
def checkTlp (curr : ThreadId) (currLs : Lockset) (report : ThreadId → InstId → RaceReport) (tlp : Tlp) :
    Option InstId → Bool × List DbCall
  | some inst =>
    if tlp.first ≠ curr && tlp.second.isDisjoint currLs then (true, [.createRace (report tlp.first inst)])
    else (false, [])
  | none => (false, [])

/-- The loop over the readers. -/
def checkTlps (curr : ThreadId) (currLs : Lockset) (report : ThreadId → InstId → RaceReport)
    (instTable : OrdMap ThreadId InstId) : List Tlp → Bool × List DbCall
  | [] => (false, [])
  | tlp :: rest =>
    let (raced, calls) := checkTlp curr currLs report tlp instTable[tlp.first]?
    let (racedLater, later) := checkTlps curr currLs report instTable rest
    (raced || racedLater, calls ++ later)

def processRead (b : DetectorBase (OrdMap ThreadId Lockset)) (curr : ThreadId) (iaddr : Address)
    (m : EraserMeta) (inst : InstId) : Option (EraserMeta × List DbCall) :=
  let currLs := MultiLock.locksetOf b.own curr
  let (raced, calls) := checkTlp curr currLs
    (fun thdId writerInst => ⟨iaddr, thdId, writerInst, .write, curr, inst, .read⟩) m.writerLockset m.writerInst
  some ({ m with
      racy := m.racy || raced
      readerLockset := m.readerLockset.insert curr ⟨curr, currLs⟩
      readerInstTable := m.readerInstTable.insert curr inst
      raceInstSet := trackInst b.trackRacyInst m.raceInstSet inst }, calls)

def processWrite (b : DetectorBase (OrdMap ThreadId Lockset)) (curr : ThreadId) (iaddr : Address)
    (m : EraserMeta) (inst : InstId) : Option (EraserMeta × List DbCall) :=
  let currLs := MultiLock.locksetOf b.own curr
  let (racedWriter, calls) := checkTlp curr currLs
    (fun thdId writerInst => ⟨iaddr, thdId, writerInst, .write, curr, inst, .write⟩) m.writerLockset m.writerInst
  let (racedReaders, moreCalls) := checkTlps curr currLs
    (fun thdId readerInst => ⟨iaddr, thdId, readerInst, .read, curr, inst, .write⟩) m.readerInstTable
    (m.readerLockset.toList.map (·.2))
  some ({ m with
      racy := m.racy || racedWriter || racedReaders
      writerLockset := ⟨curr, currLs⟩
      writerInst := some inst
      raceInstSet := trackInst b.trackRacyInst m.raceInstSet inst }, calls ++ moreCalls)

def processFree (b : DetectorBase (OrdMap ThreadId Lockset)) (m : EraserMeta) : List DbCall :=
  releaseInsts b.trackRacyInst m.racy m.raceInstSet

end Eraser

def eraser : Algorithm (OrdMap ThreadId Lockset) EraserMeta where
  newMeta := {}
  processLock := Eraser.processLock
  processUnlock := Eraser.processUnlock
  afterPthreadJoin := DetectorBase.afterPthreadJoin
  beforeCall own _ _ := own
  gate := gate
  processRead := Eraser.processRead
  processWrite := Eraser.processWrite
  processFree := Eraser.processFree

end Maple.Pintool
