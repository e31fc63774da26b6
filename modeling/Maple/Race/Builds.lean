import Maple.Race.Detector

/-! The detectors in either build: without `_DEBUG` the debug assertions are
compiled to nothing. What a failed assertion would follow by undefined behaviour,
such as erasing at the end of a table, still ends the run. -/
namespace Maple.Race

namespace BarrierMeta

def scanEntryIn (debug : Bool) (curr : ThreadId) (scan : Scan) (entry : ThreadId × (VectorClock × Bool)) :
    Option Scan := do
  let joined := scan.currVc.join entry.2.1
  if entry.1 = curr then
    assertIn debug (entry.2.2 = false)
    return { scan with table := scan.table.insert curr (entry.2.1, true), currVc := joined }
  else
    return { scan with
      allFlagged := scan.allFlagged && entry.2.2
      allNotFlagged := scan.allNotFlagged && !entry.2.2
      currVc := joined }

def processPostIn (debug : Bool) (m : BarrierMeta) (curr : ThreadId) (currVc : VectorClock) :
    Option (BarrierMeta × VectorClock) := do
  let scan ← m.postTable.toList.foldlM (scanEntryIn debug curr) { table := m.postTable, currVc := currVc }
  return (m.settle scan, scan.currVc.increment curr)

end BarrierMeta

namespace DetectorBase
variable {G M : Type}

def processPostBarrierIn (debug : Bool) (b : DetectorBase G) (curr : ThreadId) (addr : Address) :
    Option (DetectorBase G) := do
  let currVc ← b.currVcMap[curr]?
  let barrierMeta := b.barrierMetaTable[addr]?.getD {}
  let (left, vc) ← barrierMeta.processPostIn debug curr currVc
  return { b.setVc curr vc with barrierMetaTable := b.barrierMetaTable.insert addr left }

def allocAddrRegionIn (debug : Bool) (b : DetectorBase G) (addr size : Address) :
    Option (DetectorBase G) := do
  assertIn debug (addr ≠ 0 ∧ size ≠ 0)
  return { b with filter := b.filter.addRegion addr size }

def allocSectionIn (debug : Bool) (b : DetectorBase G) (start size : Address) :
    Option (DetectorBase G) :=
  if start ≠ 0 then b.allocAddrRegionIn debug start size else some b

def imageLoadIn (debug : Bool) (b : DetectorBase G)
    (lowAddr highAddr dataStart dataSize bssStart bssSize : Address) : Option (DetectorBase G) := do
  assertIn debug (lowAddr ≠ 0 ∧ highAddr ≠ 0 ∧ lowAddr < highAddr)
  let withData ← b.allocSectionIn debug dataStart dataSize
  withData.allocSectionIn debug bssStart bssSize

def afterPthreadMutexLockIn (debug : Bool) (alg : Algorithm G M) (b : DetectorBase G) (curr : ThreadId)
    (addr : Address) : Option (DetectorBase G) := do
  assertIn debug (b.isAligned addr)
  alg.processLock { b with mutexMetaTable := ensureMeta {} b.mutexMetaTable addr } curr addr

def beforePthreadMutexUnlockIn (debug : Bool) (alg : Algorithm G M) (b : DetectorBase G) (curr : ThreadId)
    (addr : Address) : Option (DetectorBase G) := do
  assertIn debug (b.isAligned addr)
  alg.processUnlock { b with mutexMetaTable := ensureMeta {} b.mutexMetaTable addr } curr addr

/-- `BeforePthreadCondSignal` and `BeforePthreadCondBroadcast`. -/
def beforePthreadCondSignalIn (debug : Bool) (b : DetectorBase G) (curr : ThreadId) (addr : Address) :
    Option (DetectorBase G) := do
  assertIn debug (b.isAligned addr)
  b.processNotify curr addr

def beforePthreadCondWaitIn (debug : Bool) (alg : Algorithm G M) (b : DetectorBase G) (curr : ThreadId)
    (condAddr mutexAddr : Address) : Option (DetectorBase G) := do
  assertIn debug (b.isAligned mutexAddr)
  assertIn debug (b.isAligned condAddr)
  let released ← alg.processUnlock { b with mutexMetaTable := ensureMeta {} b.mutexMetaTable mutexAddr }
    curr mutexAddr
  released.processPreWait curr condAddr

def afterPthreadCondWaitIn (debug : Bool) (alg : Algorithm G M) (b : DetectorBase G) (curr : ThreadId)
    (condAddr mutexAddr : Address) : Option (DetectorBase G) := do
  assertIn debug (b.isAligned mutexAddr)
  assertIn debug (b.isAligned condAddr)
  let woken ← b.processPostWait curr condAddr
  alg.processLock { woken with mutexMetaTable := ensureMeta {} woken.mutexMetaTable mutexAddr }
    curr mutexAddr

def beforePthreadBarrierWaitIn (debug : Bool) (b : DetectorBase G) (curr : ThreadId) (addr : Address) :
    Option (DetectorBase G) := do
  assertIn debug (b.isAligned addr)
  b.processPreBarrier curr addr

def afterPthreadBarrierWaitIn (debug : Bool) (b : DetectorBase G) (curr : ThreadId) (addr : Address) :
    Option (DetectorBase G) := do
  assertIn debug (b.isAligned addr)
  b.processPostBarrierIn debug curr addr

def onHookIn (debug : Bool) (alg : Algorithm G M) (b : DetectorBase G) : Hook → Option (DetectorBase G)
  | .imageLoad lowAddr highAddr dataStart dataSize bssStart bssSize =>
    b.imageLoadIn debug lowAddr highAddr dataStart dataSize bssStart bssSize
  | .afterPthreadMutexLock curr addr => b.afterPthreadMutexLockIn debug alg curr addr
  | .beforePthreadMutexUnlock curr addr => b.beforePthreadMutexUnlockIn debug alg curr addr
  | .beforePthreadCondSignal curr addr
  | .beforePthreadCondBroadcast curr addr => b.beforePthreadCondSignalIn debug curr addr
  | .beforePthreadCondWait curr condAddr mutexAddr
  | .beforePthreadCondTimedwait curr condAddr mutexAddr =>
    b.beforePthreadCondWaitIn debug alg curr condAddr mutexAddr
  | .afterPthreadCondWait curr condAddr mutexAddr
  | .afterPthreadCondTimedwait curr condAddr mutexAddr =>
    b.afterPthreadCondWaitIn debug alg curr condAddr mutexAddr
  | .beforePthreadBarrierWait curr addr => b.beforePthreadBarrierWaitIn debug curr addr
  | .afterPthreadBarrierWait curr addr => b.afterPthreadBarrierWaitIn debug curr addr
  | .afterMalloc size addr | .afterValloc size addr | .afterRealloc size addr =>
    b.allocAddrRegionIn debug addr size
  | .afterCalloc nmemb size addr => b.allocAddrRegionIn debug addr (size * nmemb)
  | e => b.onHook alg e

theorem onHookIn_true (alg : Algorithm G M) (b : DetectorBase G) (e : Hook) :
    b.onHookIn true alg e = b.onHook alg e := by
  cases e <;> rfl

theorem allocAddrRegionIn_eq_some {debug : Bool} {b b' : DetectorBase G} {addr size : Address} :
    b.allocAddrRegionIn debug addr size = some b' ↔
      (debug = true → addr ≠ 0 ∧ size ≠ 0) ∧ { b with filter := b.filter.addRegion addr size } = b' := by
  simp only [allocAddrRegionIn, Option.bind_eq_bind, Option.bind_eq_some_iff, Option.pure_def,
    Option.some.injEq]
  constructor
  · rintro ⟨⟨⟩, asserted, same⟩
    exact ⟨(assertIn_eq_some _ _).mp asserted, same⟩
  · rintro ⟨asserted, same⟩
    exact ⟨(), (assertIn_eq_some _ _).mpr asserted, same⟩

end DetectorBase

namespace Detector
variable {G M : Type}

def imageUnloadIn (debug : Bool) (alg : Algorithm G M) (d : Detector G M)
    (lowAddr dataStart bssStart : Address) : Option (Detector G M × List DbCall) := do
  assertIn debug (lowAddr ≠ 0)
  let (withoutData, out) := d.freeAddrRegion alg dataStart
  let (last, outs) := withoutData.freeAddrRegion alg bssStart
  return (last, out ++ outs)

def stepIn (debug : Bool) (alg : Algorithm G M) (d : Detector G M) :
    Hook → Option (Detector G M × List DbCall)
  | .imageUnload lowAddr dataStart bssStart => d.imageUnloadIn debug alg lowAddr dataStart bssStart
  | .beforeMemRead curr inst addr size => d.beforeMemRead alg curr inst addr size
  | .beforeMemWrite curr inst addr size => d.beforeMemWrite alg curr inst addr size
  | .beforeRealloc addr | .beforeFree addr => some (d.freeAddrRegion alg addr)
  | e => d.silent (d.toDetectorBase.onHookIn debug alg e)

theorem filter_freeAddrRegion (alg : Algorithm G M) (d : Detector G M) (addr : Address) :
    (d.freeAddrRegion alg addr).1.filter = (d.filter.removeRegion addr).2 := by
  unfold freeAddrRegion
  split
  · next null => simp [RegionFilter.removeRegion, null]
  · rfl

theorem unitSize_freeAddrRegion (alg : Algorithm G M) (d : Detector G M) (addr : Address) :
    (d.freeAddrRegion alg addr).1.unitSize = d.unitSize := by
  unfold freeAddrRegion
  split
  · rfl
  · rfl

theorem silent_eq_some {d d' : Detector G M} {b : Option (DetectorBase G)} {out : List DbCall}
    (stepped : d.silent b = some (d', out)) : ∃ b', b = some b' ∧ d' = d.onBase b' ∧ out = [] := by
  obtain ⟨b', ran, same⟩ := Option.map_eq_some_iff.mp stepped
  cases same
  exact ⟨b', ran, rfl, rfl⟩

/-- With the assertions these are the steps of the detector. -/
theorem stepIn_true (alg : Algorithm G M) (d : Detector G M) (e : Hook) :
    d.stepIn true alg e = d.step alg e := by
  cases e <;> rfl

end Detector
end Maple.Race
