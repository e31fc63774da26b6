import Maple.Pintool.Detector1
import Maple.Pintool.Epoch

/-! The FastTrack detector of `pintool/fasttrack.cpp`. -/
namespace Maple.Pintool
open Race

structure FastTrackMeta where
  racy : Bool := false
  readShared : Bool := false
  writerEpoch : Epoch := {}
  readerEpoch : Epoch := {}
  readerVc : VectorClock := {}
  writerInst : Option InstId := none
  readerInstTable : OrdMap ThreadId InstId := ∅
  raceInstSet : Std.ExtTreeSet InstId := ∅

/-- `if (!epoch.HappensBefore(curr_vc))` with its body. A missing instruction
fails the debug assertion. -/
def checkEpoch (curr : ThreadId) (currVc : VectorClock) (epoch : Epoch) (inst : Option InstId)
    (report : ThreadId → InstId → RaceReport) : Option (Bool × List DbCall) :=
  if epoch.happensBefore currVc then some (false, [])
  else if curr ≠ epoch.tid ∧ currVc.getClock epoch.tid < epoch.clock then do
    let inst ← inst
    return (true, [.createRace (report epoch.tid inst)])
  else some (true, [])

namespace FastTrack
variable {G : Type}

/-- The check of a write against the readers: whether the unit becomes racy, the
new `read_shared`, and the reports. -/
def checkReaders (curr : ThreadId) (currVc : VectorClock) (m : FastTrackMeta)
    (report : ThreadId → InstId → RaceReport) : Option (Bool × Bool × List DbCall) :=
  if m.readShared then
    if m.readerVc.happensBefore currVc then some (false, m.readShared, [])
    else do
      let calls ← reportEntries curr currVc m.readerInstTable report m.readerVc.map.toList
      return (true, false, calls)
  else do
    let (raced, calls) ← checkEpoch curr currVc m.readerEpoch m.readerInstTable[m.readerEpoch.tid]? report
    return (raced, m.readShared, calls)

def processRead (b : DetectorBase G) (curr : ThreadId) (iaddr : Address) (m : FastTrackMeta)
    (inst : InstId) : Option (FastTrackMeta × List DbCall) := do
  let currVc ← b.currVcMap[curr]?
  if m.readerEpoch.equal currVc then return (m, [])
  let (raced, calls) ← checkEpoch curr currVc m.writerEpoch m.writerInst
    (fun thdId writerInst => ⟨iaddr, thdId, writerInst, .write, curr, inst, .read⟩)
  return ({ m with
      racy := m.racy || raced
      readShared := m.readShared || !m.readerEpoch.happensBefore currVc
      readerEpoch := .make curr (currVc.getClock curr)
      readerVc := m.readerVc.setClock curr (currVc.getClock curr)
      readerInstTable := m.readerInstTable.insert curr inst
      raceInstSet := trackInst b.trackRacyInst m.raceInstSet inst }, calls)

def processWrite (b : DetectorBase G) (curr : ThreadId) (iaddr : Address) (m : FastTrackMeta)
    (inst : InstId) : Option (FastTrackMeta × List DbCall) := do
  let currVc ← b.currVcMap[curr]?
  if !m.writerEpoch.isInitial && m.writerEpoch.equal currVc then return (m, [])
  let (racedWriter, calls) ← checkEpoch curr currVc m.writerEpoch m.writerInst
    (fun thdId writerInst => ⟨iaddr, thdId, writerInst, .write, curr, inst, .write⟩)
  let (racedReader, readShared, moreCalls) ← checkReaders curr currVc m
    (fun thdId readerInst => ⟨iaddr, thdId, readerInst, .read, curr, inst, .write⟩)
  return ({ m with
      racy := m.racy || racedWriter || racedReader
      readShared := readShared
      writerEpoch := .make curr (currVc.getClock curr)
      writerInst := some inst
      raceInstSet := trackInst b.trackRacyInst m.raceInstSet inst }, calls ++ moreCalls)

def processFree (b : DetectorBase G) (m : FastTrackMeta) : List DbCall :=
  releaseInsts b.trackRacyInst m.racy m.raceInstSet

end FastTrack

def fastTrack : Algorithm Unit FastTrackMeta where
  newMeta := {}
  processLock := DetectorBase.processLock
  processUnlock := DetectorBase.processUnlock
  afterPthreadJoin := DetectorBase.afterPthreadJoin
  beforeCall own _ _ := own
  gate := gate
  processRead := FastTrack.processRead
  processWrite := FastTrack.processWrite
  processFree := FastTrack.processFree

/-- The epoch that the same-epoch test of an access of kind `k` looks at. -/
def FastTrackMeta.lastEpoch (m : FastTrackMeta) : RaceEventType → Epoch
  | .read => m.readerEpoch
  | .write => m.writerEpoch

/-- The check marks the unit exactly when the epoch has not been seen. -/
theorem checkEpoch_spec (curr : ThreadId) (currVc : VectorClock) (epoch : Epoch) (inst : Option InstId)
    (report : ThreadId → InstId → RaceReport) (named : epoch ≠ {} → ∃ i, inst = some i) :
    ∃ raced calls, checkEpoch curr currVc epoch inst report = some (raced, calls) ∧
      (raced = true ↔ currVc.getClock epoch.tid < epoch.clock) ∧
      ∀ call ∈ calls, ∃ i, inst = some i ∧ curr ≠ epoch.tid ∧
        currVc.getClock epoch.tid < epoch.clock ∧ call = .createRace (report epoch.tid i) := by
  by_cases seen : epoch.happensBefore currVc = true
  · refine ⟨false, [], by simp [checkEpoch, seen], ?_, by simp⟩
    rw [Epoch.happensBefore_iff] at seen
    simpa using seen
  · have above := seen
    rw [Epoch.happensBefore_iff, Nat.not_le] at above
    by_cases other : curr ≠ epoch.tid
    · have nonempty : epoch ≠ {} := by
        rintro rfl
        exact Nat.not_lt_zero _ above
      obtain ⟨i, found⟩ := named nonempty
      refine ⟨true, [.createRace (report epoch.tid i)], ?_, by simpa using above, ?_⟩
      · simp [checkEpoch, seen, other, above, found]
      · intro call member
        exact ⟨i, found, other, above, List.mem_singleton.mp member⟩
    · exact ⟨true, [], by simp [checkEpoch, seen, other], by simpa using above, by simp⟩
end Maple.Pintool
