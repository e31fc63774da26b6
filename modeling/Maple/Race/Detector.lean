import Maple.Lib.Runs
import Maple.Core.Filter
import Maple.Core.VectorClock

/-! The abstract detectors `race::Detector` (`race/detector.cc`) and
`pintool::Detector1` (`pintool/detector1.cpp`). The two classes have the same
hooks; `Detector1` adds the single-thread gate and virtual lock processing, which
are fields of `Algorithm` here. A hook that fails a debug assertion or follows a
null pointer returns `none`. -/
namespace Maple.Race

inductive RaceEventType where
  | read
  | write
  deriving DecidableEq

/-- Arguments of `ReportRace`. -/
structure RaceReport where
  addr : Address
  t0 : ThreadId
  i0 : InstId
  p0 : RaceEventType
  t1 : ThreadId
  i1 : InstId
  p1 : RaceEventType
  deriving DecidableEq

/-- Calls made on the race database. -/
inductive DbCall where
  | createRace (race : RaceReport)
  | setRacyInst (inst : InstId)
  deriving DecidableEq

structure MutexMeta where
  vc : VectorClock := {}

structure CondMeta where
  waitTable : OrdMap ThreadId VectorClock := ∅
  signalTable : OrdMap ThreadId VectorClock := ∅

structure BarrierMeta where
  preUsingTable1 : Bool := true
  postUsingTable1 : Bool := true
  barrierWaitTable1 : OrdMap ThreadId (VectorClock × Bool) := ∅
  barrierWaitTable2 : OrdMap ThreadId (VectorClock × Bool) := ∅

/-- Members shared by all detectors. `G` holds the members that a subclass adds
beside its `Meta` class; the two counters exist in `Detector1` only, as an `int`
that is taken not to overflow. -/
structure DetectorBase (G : Type) where
  unitSize : Address := 4
  trackRacyInst : Bool := false
  filter : RegionFilter := {}
  mutexMetaTable : OrdMap Address MutexMeta := ∅
  condMetaTable : OrdMap Address CondMeta := ∅
  barrierMetaTable : OrdMap Address BarrierMeta := ∅
  currVcMap : OrdMap ThreadId VectorClock := ∅
  atomicMap : OrdMap ThreadId Bool := ∅
  threadStartC : Int := 0
  threadJoinC : Int := 0
  own : G

structure Detector (G M : Type) extends DetectorBase G where
  metaTable : OrdMap Address M := ∅

/-- The hooks of the analyzer interface that a detector overrides. -/
inductive Hook where
  | imageLoad (lowAddr highAddr dataStart dataSize bssStart bssSize : Address)
  | imageUnload (lowAddr dataStart bssStart : Address)
  | threadStart (curr parent : ThreadId)
  | beforeMemRead (curr : ThreadId) (inst : InstId) (addr size : Address)
  | beforeMemWrite (curr : ThreadId) (inst : InstId) (addr size : Address)
  | beforeAtomicInst (curr : ThreadId)
  | afterAtomicInst (curr : ThreadId)
  | beforeCall (curr : ThreadId) (target : Address)
  | afterPthreadJoin (curr child : ThreadId)
  | afterPthreadMutexLock (curr : ThreadId) (addr : Address)
  | beforePthreadMutexUnlock (curr : ThreadId) (addr : Address)
  | beforePthreadCondSignal (curr : ThreadId) (addr : Address)
  | beforePthreadCondBroadcast (curr : ThreadId) (addr : Address)
  | beforePthreadCondWait (curr : ThreadId) (condAddr mutexAddr : Address)
  | afterPthreadCondWait (curr : ThreadId) (condAddr mutexAddr : Address)
  | beforePthreadCondTimedwait (curr : ThreadId) (condAddr mutexAddr : Address)
  | afterPthreadCondTimedwait (curr : ThreadId) (condAddr mutexAddr : Address)
  | beforePthreadBarrierWait (curr : ThreadId) (addr : Address)
  | afterPthreadBarrierWait (curr : ThreadId) (addr : Address)
  | afterMalloc (size addr : Address)
  | afterCalloc (nmemb size addr : Address)
  | beforeRealloc (oriAddr : Address)
  | afterRealloc (size newAddr : Address)
  | beforeFree (addr : Address)
  | afterValloc (size addr : Address)
  deriving DecidableEq

/-- `GetMutexMeta` and its siblings create a missing entry. -/
def ensureMeta {V : Type} (fresh : V) (table : OrdMap Address V) (iaddr : Address) :
    OrdMap Address V :=
  if iaddr ∈ table then table else table.insert iaddr fresh

@[simp] theorem getD_ensureMeta {V : Type} (fresh : V) (table : OrdMap Address V)
    (iaddr b : Address) : (ensureMeta fresh table iaddr)[b]?.getD fresh = table[b]?.getD fresh := by
  unfold ensureMeta
  split
  · rfl
  · next missing =>
      rw [Std.ExtTreeMap.getElem?_insert]
      split
      · next same =>
          have same : iaddr = b := by simpa using same
          subst same
          rw [Std.ExtTreeMap.getElem?_eq_none missing]
          rfl
      · rfl

namespace DetectorBase
variable {G : Type}

def isAligned (b : DetectorBase G) (addr : Address) : Prop := unitDownAlign addr b.unitSize = addr

instance (b : DetectorBase G) (addr : Address) : Decidable (b.isAligned addr) :=
  inferInstanceAs (Decidable (_ = _))

def setVc (b : DetectorBase G) (thdId : ThreadId) (vc : VectorClock) : DetectorBase G :=
  { b with currVcMap := b.currVcMap.insert thdId vc }

/-- End of `ThreadStart`: initialise the atomic map and count the thread. -/
def enroll (b : DetectorBase G) (curr : ThreadId) : DetectorBase G :=
  { b with
    atomicMap := b.atomicMap.insert curr false
    threadStartC := b.threadStartC + 1 }

def threadStart (b : DetectorBase G) (curr parent : ThreadId) : Option (DetectorBase G) := do
  let currVc := ({} : VectorClock).increment curr
  if parent ≠ invalidThdId then
    let parentVc ← b.currVcMap[parent]?
    return ((b.setVc parent (parentVc.increment parent)).setVc curr (currVc.join parentVc)).enroll curr
  else
    return (b.setVc curr currVc).enroll curr

def afterPthreadJoin (b : DetectorBase G) (curr child : ThreadId) : Option (DetectorBase G) := do
  let currVc ← b.currVcMap[curr]?
  let childVc ← b.currVcMap[child]?
  return { b.setVc curr (currVc.join childVc) with threadJoinC := b.threadJoinC + 1 }

def processLock (b : DetectorBase G) (curr : ThreadId) (addr : Address) :
    Option (DetectorBase G) := do
  let currVc ← b.currVcMap[curr]?
  return b.setVc curr (currVc.join (b.mutexMetaTable[addr]?.getD {}).vc)

def processUnlock (b : DetectorBase G) (curr : ThreadId) (addr : Address) :
    Option (DetectorBase G) := do
  let currVc ← b.currVcMap[curr]?
  return { b.setVc curr (currVc.increment curr) with
    mutexMetaTable := b.mutexMetaTable.insert addr ⟨currVc⟩ }

def processNotify (b : DetectorBase G) (curr : ThreadId) (addr : Address) :
    Option (DetectorBase G) := do
  let currVc ← b.currVcMap[curr]?
  let condMeta := b.condMetaTable[addr]?.getD {}
  let waiters := condMeta.waitTable.toList
  -- join the clocks of all waiters, then hand the result to each of them
  let joined := waiters.foldl (fun vc entry => vc.join entry.2) currVc
  let signals := waiters.foldl (fun table entry => table.insert entry.1 joined) condMeta.signalTable
  return { b.setVc curr (joined.increment curr) with
    condMetaTable := b.condMetaTable.insert addr { condMeta with signalTable := signals } }

def processPreWait (b : DetectorBase G) (curr : ThreadId) (addr : Address) :
    Option (DetectorBase G) := do
  let currVc ← b.currVcMap[curr]?
  let condMeta := b.condMetaTable[addr]?.getD {}
  return { b.setVc curr (currVc.increment curr) with
    condMetaTable := b.condMetaTable.insert addr
      { condMeta with waitTable := condMeta.waitTable.insert curr currVc } }

def processPostWait (b : DetectorBase G) (curr : ThreadId) (addr : Address) :
    Option (DetectorBase G) := do
  let currVc ← b.currVcMap[curr]?
  let condMeta := b.condMetaTable[addr]?.getD {}
  debugAssert (curr ∈ condMeta.waitTable)
  let waiting := condMeta.waitTable.erase curr
  match condMeta.signalTable[curr]? with
  | none =>
    return { b with condMetaTable := b.condMetaTable.insert addr { condMeta with waitTable := waiting } }
  | some vc =>
    return { b.setVc curr (currVc.join vc) with
      condMetaTable := b.condMetaTable.insert addr
        { waitTable := waiting, signalTable := condMeta.signalTable.erase curr } }

end DetectorBase

namespace BarrierMeta

def preTable (m : BarrierMeta) : OrdMap ThreadId (VectorClock × Bool) :=
  if m.preUsingTable1 then m.barrierWaitTable1 else m.barrierWaitTable2

def postTable (m : BarrierMeta) : OrdMap ThreadId (VectorClock × Bool) :=
  if m.postUsingTable1 then m.barrierWaitTable1 else m.barrierWaitTable2

def setPreTable (m : BarrierMeta) (table : OrdMap ThreadId (VectorClock × Bool)) : BarrierMeta :=
  if m.preUsingTable1 then { m with barrierWaitTable1 := table }
  else { m with barrierWaitTable2 := table }

def setPostTable (m : BarrierMeta) (table : OrdMap ThreadId (VectorClock × Bool)) : BarrierMeta :=
  if m.postUsingTable1 then { m with barrierWaitTable1 := table }
  else { m with barrierWaitTable2 := table }

/-- Local variables of the loop in `ProcessPostBarrier`. -/
structure Scan where
  table : OrdMap ThreadId (VectorClock × Bool)
  currVc : VectorClock
  allFlagged : Bool := true
  allNotFlagged : Bool := true

/-- One iteration: flag the current thread, look at the flags of the others, and
join the stored clock. -/
def scanEntry (curr : ThreadId) (scan : Scan) (entry : ThreadId × (VectorClock × Bool)) :
    Option Scan := do
  let joined := scan.currVc.join entry.2.1
  if entry.1 = curr then
    debugAssert (entry.2.2 = false)
    return { scan with table := scan.table.insert curr (entry.2.1, true), currVc := joined }
  else
    return { scan with
      allFlagged := scan.allFlagged && entry.2.2
      allNotFlagged := scan.allNotFlagged && !entry.2.2
      currVc := joined }

def processPre (m : BarrierMeta) (curr : ThreadId) (currVc : VectorClock) : BarrierMeta :=
  m.setPreTable (m.preTable.insert curr (currVc, false))

/-- What follows the loop: write the table back, let the next round's arrivals
use the other table once a first thread leaves, and clear the table behind the last. -/
def settle (m : BarrierMeta) (scan : Scan) : BarrierMeta :=
  let flagged := m.setPostTable scan.table
  let switched := if scan.allNotFlagged then { flagged with preUsingTable1 := !flagged.preUsingTable1 }
    else flagged
  if scan.allFlagged then
    { switched.setPostTable ∅ with postUsingTable1 := !switched.postUsingTable1 }
  else switched

def processPost (m : BarrierMeta) (curr : ThreadId) (currVc : VectorClock) :
    Option (BarrierMeta × VectorClock) := do
  let scan ← m.postTable.toList.foldlM (scanEntry curr) { table := m.postTable, currVc := currVc }
  return (m.settle scan, scan.currVc.increment curr)

end BarrierMeta

namespace DetectorBase
variable {G : Type}

def processPreBarrier (b : DetectorBase G) (curr : ThreadId) (addr : Address) :
    Option (DetectorBase G) := do
  let currVc ← b.currVcMap[curr]?
  let barrierMeta := b.barrierMetaTable[addr]?.getD {}
  return { b with barrierMetaTable := b.barrierMetaTable.insert addr (barrierMeta.processPre curr currVc) }

def processPostBarrier (b : DetectorBase G) (curr : ThreadId) (addr : Address) :
    Option (DetectorBase G) := do
  let currVc ← b.currVcMap[curr]?
  let barrierMeta := b.barrierMetaTable[addr]?.getD {}
  let (left, vc) ← barrierMeta.processPost curr currVc
  return { b.setVc curr vc with barrierMetaTable := b.barrierMetaTable.insert addr left }

def allocAddrRegion (b : DetectorBase G) (addr size : Address) : Option (DetectorBase G) := do
  debugAssert (addr ≠ 0 ∧ size ≠ 0)
  return { b with filter := b.filter.addRegion addr size }

end DetectorBase

/-- The virtual functions of a detector class. -/
structure Algorithm (G M : Type) where
  newMeta : M
  processLock : DetectorBase G → ThreadId → Address → Option (DetectorBase G)
  processUnlock : DetectorBase G → ThreadId → Address → Option (DetectorBase G)
  afterPthreadJoin : DetectorBase G → ThreadId → ThreadId → Option (DetectorBase G)
  beforeCall : G → ThreadId → Address → G
  /-- The gate of `Detector1::BeforeMemRead`; `race::Detector` has none. -/
  gate : DetectorBase G → Bool
  processRead : DetectorBase G → ThreadId → Address → M → InstId → Option (M × List DbCall)
  processWrite : DetectorBase G → ThreadId → Address → M → InstId → Option (M × List DbCall)
  processFree : DetectorBase G → M → List DbCall

/-- The loop over the units of an access: `GetMeta`, then process. -/
def accessLoop {M : Type} (newMeta : M) (process : Address → M → Option (M × List DbCall)) :
    List Address → OrdMap Address M → Option (OrdMap Address M × List DbCall)
  | [], table => some (table, [])
  | iaddr :: rest, table => do
    let (changed, out) ← process iaddr (table[iaddr]?.getD newMeta)
    let (last, outs) ← accessLoop newMeta process rest (table.insert iaddr changed)
    return (last, out ++ outs)

/-- The loops of `FreeAddrRegion` over the units of the removed region. -/
def freeLoop {V : Type} (processFree : V → List DbCall) :
    List Address → OrdMap Address V → OrdMap Address V × List DbCall
  | [], table => (table, [])
  | iaddr :: rest, table =>
    match table[iaddr]? with
    | none => freeLoop processFree rest table
    | some freed =>
      let (last, outs) := freeLoop processFree rest (table.erase iaddr)
      (last, processFree freed ++ outs)

namespace Detector
variable {G M : Type}

def onBase (d : Detector G M) (b : DetectorBase G) : Detector G M := { d with toDetectorBase := b }

/-- Whether the access hooks look at the access at all. -/
def monitored (alg : Algorithm G M) (b : DetectorBase G) (curr : ThreadId) (addr : Address) : Bool :=
  !b.filter.filter addr && !b.atomicMap[curr]?.getD false && alg.gate b

def beforeMem (alg : Algorithm G M) (process : DetectorBase G → ThreadId → Address → M → InstId →
    Option (M × List DbCall)) (d : Detector G M) (curr : ThreadId) (inst : InstId)
    (addr size : Address) : Option (Detector G M × List DbCall) :=
  if monitored alg d.toDetectorBase curr addr then do
    let (table, outs) ← accessLoop alg.newMeta
      (fun iaddr accessed => process d.toDetectorBase curr iaddr accessed inst)
      (unitsOf d.unitSize addr size) d.metaTable
    return ({ d with metaTable := table }, outs)
  else some (d, [])

def beforeMemRead (alg : Algorithm G M) (d : Detector G M) (curr : ThreadId) (inst : InstId)
    (addr size : Address) : Option (Detector G M × List DbCall) :=
  d.beforeMem alg alg.processRead curr inst addr size

def beforeMemWrite (alg : Algorithm G M) (d : Detector G M) (curr : ThreadId) (inst : InstId)
    (addr size : Address) : Option (Detector G M × List DbCall) :=
  d.beforeMem alg alg.processWrite curr inst addr size

def freeAddrRegion (alg : Algorithm G M) (d : Detector G M) (addr : Address) :
    Detector G M × List DbCall :=
  if addr = 0 then (d, [])
  else
    let (size, filter) := d.filter.removeRegion addr
    let units := unitsOf d.unitSize addr size
    let (metas, outs) := freeLoop (alg.processFree d.toDetectorBase) units d.metaTable
    ({ d with
        filter := filter
        metaTable := metas
        mutexMetaTable := (freeLoop (fun _ => []) units d.mutexMetaTable).1
        condMetaTable := (freeLoop (fun _ => []) units d.condMetaTable).1
        barrierMetaTable := (freeLoop (fun _ => []) units d.barrierMetaTable).1 }, outs)

end Detector

namespace DetectorBase
variable {G : Type}

def afterPthreadMutexLock {M : Type} (alg : Algorithm G M) (b : DetectorBase G) (curr : ThreadId)
    (addr : Address) : Option (DetectorBase G) := do
  debugAssert (b.isAligned addr)
  alg.processLock { b with mutexMetaTable := ensureMeta {} b.mutexMetaTable addr } curr addr

def beforePthreadMutexUnlock {M : Type} (alg : Algorithm G M) (b : DetectorBase G) (curr : ThreadId)
    (addr : Address) : Option (DetectorBase G) := do
  debugAssert (b.isAligned addr)
  alg.processUnlock { b with mutexMetaTable := ensureMeta {} b.mutexMetaTable addr } curr addr

def beforePthreadCondSignal (b : DetectorBase G) (curr : ThreadId) (addr : Address) :
    Option (DetectorBase G) := do
  debugAssert (b.isAligned addr)
  b.processNotify curr addr

def beforePthreadCondBroadcast (b : DetectorBase G) (curr : ThreadId) (addr : Address) :
    Option (DetectorBase G) := do
  debugAssert (b.isAligned addr)
  b.processNotify curr addr

def beforePthreadCondWait {M : Type} (alg : Algorithm G M) (b : DetectorBase G) (curr : ThreadId)
    (condAddr mutexAddr : Address) : Option (DetectorBase G) := do
  debugAssert (b.isAligned mutexAddr)
  debugAssert (b.isAligned condAddr)
  let released ← alg.processUnlock { b with mutexMetaTable := ensureMeta {} b.mutexMetaTable mutexAddr }
    curr mutexAddr
  released.processPreWait curr condAddr

def afterPthreadCondWait {M : Type} (alg : Algorithm G M) (b : DetectorBase G) (curr : ThreadId)
    (condAddr mutexAddr : Address) : Option (DetectorBase G) := do
  debugAssert (b.isAligned mutexAddr)
  debugAssert (b.isAligned condAddr)
  let woken ← b.processPostWait curr condAddr
  alg.processLock { woken with mutexMetaTable := ensureMeta {} woken.mutexMetaTable mutexAddr }
    curr mutexAddr

def beforePthreadBarrierWait (b : DetectorBase G) (curr : ThreadId) (addr : Address) :
    Option (DetectorBase G) := do
  debugAssert (b.isAligned addr)
  b.processPreBarrier curr addr

def afterPthreadBarrierWait (b : DetectorBase G) (curr : ThreadId) (addr : Address) :
    Option (DetectorBase G) := do
  debugAssert (b.isAligned addr)
  b.processPostBarrier curr addr

/-- A section that the image does not have starts at zero. -/
def allocSection (b : DetectorBase G) (start size : Address) : Option (DetectorBase G) :=
  if start ≠ 0 then b.allocAddrRegion start size else some b

def imageLoad (b : DetectorBase G) (lowAddr highAddr dataStart dataSize bssStart bssSize : Address) :
    Option (DetectorBase G) := do
  debugAssert (lowAddr ≠ 0 ∧ highAddr ≠ 0 ∧ lowAddr < highAddr)
  let withData ← b.allocSection dataStart dataSize
  withData.allocSection bssStart bssSize

/-- The hooks that neither access nor free memory. -/
def onHook {M : Type} (alg : Algorithm G M) (b : DetectorBase G) : Hook → Option (DetectorBase G)
  | .imageLoad lowAddr highAddr dataStart dataSize bssStart bssSize =>
    b.imageLoad lowAddr highAddr dataStart dataSize bssStart bssSize
  | .threadStart curr parent => b.threadStart curr parent
  | .beforeAtomicInst curr => some { b with atomicMap := b.atomicMap.insert curr true }
  | .afterAtomicInst curr => some { b with atomicMap := b.atomicMap.insert curr false }
  | .beforeCall curr target => some { b with own := alg.beforeCall b.own curr target }
  | .afterPthreadJoin curr child => alg.afterPthreadJoin b curr child
  | .afterPthreadMutexLock curr addr => b.afterPthreadMutexLock alg curr addr
  | .beforePthreadMutexUnlock curr addr => b.beforePthreadMutexUnlock alg curr addr
  | .beforePthreadCondSignal curr addr => b.beforePthreadCondSignal curr addr
  | .beforePthreadCondBroadcast curr addr => b.beforePthreadCondBroadcast curr addr
  | .beforePthreadCondWait curr condAddr mutexAddr
  | .beforePthreadCondTimedwait curr condAddr mutexAddr =>
    b.beforePthreadCondWait alg curr condAddr mutexAddr
  | .afterPthreadCondWait curr condAddr mutexAddr
  | .afterPthreadCondTimedwait curr condAddr mutexAddr =>
    b.afterPthreadCondWait alg curr condAddr mutexAddr
  | .beforePthreadBarrierWait curr addr => b.beforePthreadBarrierWait curr addr
  | .afterPthreadBarrierWait curr addr => b.afterPthreadBarrierWait curr addr
  | .afterMalloc size addr | .afterValloc size addr | .afterRealloc size addr =>
    b.allocAddrRegion addr size
  | .afterCalloc nmemb size addr => b.allocAddrRegion addr (size * nmemb)
  | .imageUnload .. | .beforeMemRead .. | .beforeMemWrite .. | .beforeRealloc .. | .beforeFree .. =>
    some b

end DetectorBase

namespace Detector
variable {G M : Type}

def imageUnload (alg : Algorithm G M) (d : Detector G M) (lowAddr dataStart bssStart : Address) :
    Option (Detector G M × List DbCall) := do
  debugAssert (lowAddr ≠ 0)
  let (withoutData, out) := d.freeAddrRegion alg dataStart
  let (last, outs) := withoutData.freeAddrRegion alg bssStart
  return (last, out ++ outs)

def silent (d : Detector G M) (b : Option (DetectorBase G)) : Option (Detector G M × List DbCall) :=
  b.map (fun b => (d.onBase b, []))

/-- Dispatch of one analyzer hook. -/
def step (alg : Algorithm G M) (d : Detector G M) : Hook → Option (Detector G M × List DbCall)
  | .imageUnload lowAddr dataStart bssStart => d.imageUnload alg lowAddr dataStart bssStart
  | .beforeMemRead curr inst addr size => d.beforeMemRead alg curr inst addr size
  | .beforeMemWrite curr inst addr size => d.beforeMemWrite alg curr inst addr size
  | .beforeRealloc addr | .beforeFree addr => some (d.freeAddrRegion alg addr)
  | e => d.silent (d.toDetectorBase.onHook alg e)

/-- All hooks of a trace; the outputs are the database calls of each hook. -/
def run (alg : Algorithm G M) : Detector G M → List Hook → Option (Detector G M × List (List DbCall)) :=
  Runs.run (step alg)

end Detector
end Maple.Race
