import Maple.Pintool.AccuLock

/-! The HistLockPlus detector of `pintool/histlockplus.cpp`. Records are kept with
the number of unlocks before them. When a thread accesses a unit from another call
site, those of its records from the old site that others make redundant are erased.
The counts of unlocks are `releaseCnt_map_` in the source file and `release_map_` in
its header. -/
namespace Maple.Pintool
open Race

/-- `ELPI`. Release counts are an `int` that is taken not to overflow. -/
structure Elpi where
  epoch : Epoch
  releaseCnt : Int
  lockset : Lockset
  inst : InstId

/-- `iteratorcomp`: neither record is below the other. -/
def Elpi.equivalent (elpi other : Elpi) : Bool :=
  instKey (elpi.epoch, elpi.lockset) = instKey (other.epoch, other.lockset) &&
    elpi.releaseCnt = other.releaseCnt && elpi.inst = other.inst

/-- Whatever races with the second record races with the first. -/
def Elpi.Covers (elpi other : Elpi) : Prop := elpi.epoch = other.epoch ∧ elpi.lockset.isSubsetOf other.lockset = true

/-- `ELPIList`. Insertions are at the end, so that an iterator is the number of
insertions before its own. -/
structure ElpiList where
  nodes : OrdMap ℕ Elpi := ∅
  inserted : ℕ := 0

namespace ElpiList

def back (elpis : ElpiList) : Option Elpi := elpis.nodes.toList.getLast?.map (·.2)

/-- An iterator to an erased node must not be dereferenced or erased. -/
def deref (elpis : ElpiList) (it : ℕ) : Option Elpi := elpis.nodes[it]?

def erase (elpis : ElpiList) (it : ℕ) : Option ElpiList := do
  let _ ← elpis.deref it
  return { elpis with nodes := elpis.nodes.erase it }

def pushBack (elpis : ElpiList) (elpi : Elpi) : ElpiList :=
  ⟨elpis.nodes.insert elpis.inserted elpi, elpis.inserted + 1⟩

end ElpiList

/-- The records of one kind of access with their `CallSiteELPIListMap`. -/
structure ElpiHistory where
  elpiList : ElpiList := {}
  callsiteElpiMap : OrdMap ThreadId (Address × List ℕ) := ∅

structure HistLockPlusMeta where
  racy : Bool := false
  writer : ElpiHistory := {}
  reader : ElpiHistory := {}
  raceInstSet : Std.ExtTreeSet InstId := ∅

structure HistLockPlusOwn where
  locksetMap : OrdMap ThreadId Lockset := ∅
  callsiteMap : OrdMap ThreadId Address := ∅
  releaseCntMap : OrdMap ThreadId Int := ∅

namespace ElpiHistory

/-- `callsite_elpi_map[thd]` -/
def callsite (h : ElpiHistory) (thdId : ThreadId) : Address × List ℕ :=
  h.callsiteElpiMap[thdId]?.getD (0, [])

def records (h : ElpiHistory) : List (Elp × Option InstId) :=
  h.elpiList.nodes.toList.map fun node => ((node.2.epoch, node.2.lockset), some node.2.inst)

/-- The test of the last record for the same epoch and count. -/
def lastIs (h : ElpiHistory) (currVc : VectorClock) (releaseCnt : Int) : Bool :=
  h.elpiList.back.any fun last => last.epoch.equal currVc && last.releaseCnt = releaseCnt

/-- `myset.insert` -/
def insertIter (myset : List (ℕ × Elpi)) (it : ℕ) (elpi : Elpi) : List (ℕ × Elpi) :=
  if myset.any fun entry => entry.2.equivalent elpi then myset else (it, elpi) :: myset

/-- The inner loop of the elimination. -/
def collectFrom (elpis : ElpiList) (it : ℕ) : List (ℕ × Elpi) → List ℕ → Option (List (ℕ × Elpi))
  | myset, [] => some myset
  | myset, it2 :: rest => do
    let elpi ← elpis.deref it
    let elpi2 ← elpis.deref it2
    if elpi.epoch = elpi2.epoch && elpi.lockset.isSubsetOf elpi2.lockset then
      collectFrom elpis it (insertIter myset it elpi) rest
    else if elpi.epoch = elpi2.epoch && elpi2.lockset.isSubsetOf elpi.lockset then
      collectFrom elpis it (insertIter myset it2 elpi2) rest
    else collectFrom elpis it myset rest

/-- The outer loop. -/
def collect (elpis : ElpiList) : List (ℕ × Elpi) → List ℕ → Option (List (ℕ × Elpi))
  | myset, [] => some myset
  | myset, it :: rest => do
    let myset ← collectFrom elpis it myset rest
    collect elpis myset rest

/-- Elimination when the call site differs from that of the last access. -/
def eliminate (h : ElpiHistory) (curr : ThreadId) (callsite : Address) : Option ElpiHistory :=
  if (h.callsite curr).1 ≠ callsite then do
    let myset ← collect h.elpiList [] (h.callsite curr).2
    let elpiList ← myset.foldlM (fun elpis entry => elpis.erase entry.1) h.elpiList
    return ⟨elpiList, h.callsiteElpiMap.insert curr (callsite, [])⟩
  else some h

/-- Append a record and its iterator. -/
def append (h : ElpiHistory) (curr : ThreadId) (elpi : Elpi) : ElpiHistory :=
  ⟨h.elpiList.pushBack elpi, h.callsiteElpiMap.insert curr
    ((h.callsite curr).1, (h.callsite curr).2 ++ [h.elpiList.inserted])⟩

end ElpiHistory

namespace HistLockPlus

def threadStart (b : DetectorBase HistLockPlusOwn) (curr parent : ThreadId) :
    Option (DetectorBase HistLockPlusOwn) := do
  let started ← b.threadStart curr parent
  return { started with
    own := { started.own with releaseCntMap := started.own.releaseCntMap.insert curr 0 } }

def afterPthreadJoin (b : DetectorBase HistLockPlusOwn) (curr child : ThreadId) :
    Option (DetectorBase HistLockPlusOwn) := do
  let joined ← b.afterPthreadJoin curr child
  let currVc ← joined.currVcMap[curr]?
  return joined.setVc curr (currVc.increment curr)

def beforeCall (own : HistLockPlusOwn) (curr : ThreadId) (target : Address) : HistLockPlusOwn :=
  { own with callsiteMap := own.callsiteMap.insert curr target }

def processLock (b : DetectorBase HistLockPlusOwn) (curr : ThreadId) (addr : Address) :
    Option (DetectorBase HistLockPlusOwn) :=
  some { b with own := { b.own with
    locksetMap := b.own.locksetMap.insert curr ((MultiLock.locksetOf b.own.locksetMap curr).add addr) } }

def releaseCntOf (own : HistLockPlusOwn) (thdId : ThreadId) : Int := own.releaseCntMap[thdId]?.getD 0

def processUnlock (b : DetectorBase HistLockPlusOwn) (curr : ThreadId) (addr : Address) :
    Option (DetectorBase HistLockPlusOwn) :=
  some { b with own := { b.own with
    locksetMap := b.own.locksetMap.insert curr ((MultiLock.locksetOf b.own.locksetMap curr).remove addr)
    releaseCntMap := b.own.releaseCntMap.insert curr (releaseCntOf b.own curr + 1) } }

/-- The record of the access at hand. -/
def record (own : HistLockPlusOwn) (curr : ThreadId) (currVc : VectorClock) (inst : InstId) : Elpi :=
  ⟨.make curr (currVc.getClock curr), releaseCntOf own curr, MultiLock.locksetOf own.locksetMap curr, inst⟩

def processRead (b : DetectorBase HistLockPlusOwn) (curr : ThreadId) (iaddr : Address)
    (m : HistLockPlusMeta) (inst : InstId) : Option (HistLockPlusMeta × List DbCall) := do
  let currVc ← b.currVcMap[curr]?
  let currLs := MultiLock.locksetOf b.own.locksetMap curr
  if m.reader.lastIs currVc (releaseCntOf b.own curr) then return (m, [])
  if m.writer.lastIs currVc (releaseCntOf b.own curr) then return (m, [])
  let (raced, calls) ← checkRecords curr currVc currLs
    (fun thdId writerInst => ⟨iaddr, thdId, writerInst, .write, curr, inst, .read⟩) m.writer.records
  let reader ← m.reader.eliminate curr (b.own.callsiteMap[curr]?.getD 0)
  return ({ m with
      racy := m.racy || raced
      reader := reader.append curr (record b.own curr currVc inst)
      raceInstSet := trackInst b.trackRacyInst m.raceInstSet inst }, calls)

def processWrite (b : DetectorBase HistLockPlusOwn) (curr : ThreadId) (iaddr : Address)
    (m : HistLockPlusMeta) (inst : InstId) : Option (HistLockPlusMeta × List DbCall) := do
  let currVc ← b.currVcMap[curr]?
  let currLs := MultiLock.locksetOf b.own.locksetMap curr
  if m.writer.lastIs currVc (releaseCntOf b.own curr) then return (m, [])
  let (racedWriters, calls) ← checkRecords curr currVc currLs
    (fun thdId writerInst => ⟨iaddr, thdId, writerInst, .write, curr, inst, .write⟩) m.writer.records
  let (racedReaders, moreCalls) ← checkRecords curr currVc currLs
    (fun thdId readerInst => ⟨iaddr, thdId, readerInst, .read, curr, inst, .write⟩) m.reader.records
  let writer ← m.writer.eliminate curr (b.own.callsiteMap[curr]?.getD 0)
  return ({ m with
      racy := m.racy || racedWriters || racedReaders
      writer := writer.append curr (record b.own curr currVc inst)
      raceInstSet := trackInst b.trackRacyInst m.raceInstSet inst }, calls ++ moreCalls)

def processFree (b : DetectorBase HistLockPlusOwn) (m : HistLockPlusMeta) : List DbCall :=
  releaseInsts b.trackRacyInst m.racy m.raceInstSet

end HistLockPlus

def histLockPlus : Algorithm HistLockPlusOwn HistLockPlusMeta where
  newMeta := {}
  processLock := HistLockPlus.processLock
  processUnlock := HistLockPlus.processUnlock
  afterPthreadJoin := HistLockPlus.afterPthreadJoin
  beforeCall := HistLockPlus.beforeCall
  gate := gate
  processRead := HistLockPlus.processRead
  processWrite := HistLockPlus.processWrite
  processFree := HistLockPlus.processFree

namespace HistLockPlus

/-- The class also overrides `ThreadStart`. -/
def step (d : Detector HistLockPlusOwn HistLockPlusMeta) :
    Hook → Option (Detector HistLockPlusOwn HistLockPlusMeta × List DbCall)
  | .threadStart curr parent => d.silent (threadStart d.toDetectorBase curr parent)
  | e => d.step histLockPlus e

def run : Detector HistLockPlusOwn HistLockPlusMeta → List Hook →
    Option (Detector HistLockPlusOwn HistLockPlusMeta × List (List DbCall)) := Runs.run step

end HistLockPlus

/-- Records were made by accesses, and the iterators of a thread stand on its own records. -/
structure HistoryReal (unitSize : Address) (tr : List Hook) (epoch : Stamps) (n : ℕ) (x : Address)
    (k : RaceEventType) (h : ElpiHistory) : Prop where
  entry : ∀ (it : ℕ) (elpi : Elpi), h.elpiList.deref it = some elpi →
    LockEntry unitSize tr epoch n k x (elpi.epoch, elpi.lockset) (some elpi.inst)
  below : ∀ (it : ℕ) (elpi : Elpi), h.elpiList.deref it = some elpi → it < h.elpiList.inserted
  valid : ∀ (t : ThreadId), ∀ it ∈ (h.callsite t).2, ∃ elpi, h.elpiList.deref it = some elpi ∧
    elpi.epoch.tid = t

structure HistLockPlusReal (unitSize : Address) (tr : List Hook) (epoch : Stamps) (n : ℕ) (x : Address)
    (m : HistLockPlusMeta) : Prop where
  writer : HistoryReal unitSize tr epoch n x .write m.writer
  reader : HistoryReal unitSize tr epoch n x .read m.reader

namespace ElpiList
variable {elpis last : ElpiList} {it other : ℕ} {elpi : Elpi}

theorem deref_pushBack (elpis : ElpiList) (elpi : Elpi) (it : ℕ) :
    (elpis.pushBack elpi).deref it = if elpis.inserted = it then some elpi else elpis.deref it :=
  getElem?_insert_thread ..

theorem erase_spec (found : elpis.deref it = some elpi) : ∃ last, elpis.erase it = some last ∧
    last.inserted = elpis.inserted ∧ last.deref it = none ∧
    ∀ other, other ≠ it → last.deref other = elpis.deref other := by
  refine ⟨{ elpis with nodes := elpis.nodes.erase it }, by simp [erase, found], rfl, ?_, fun other apart => ?_⟩
  · simp [deref]
  · simp [deref, Std.ExtTreeMap.getElem?_erase, apart.symm]

/-- Erasing distinct nodes that are there, and what is left. -/
theorem eraseAll_spec (myset : List (ℕ × Elpi)) (distinct : (myset.map Prod.fst).Nodup)
    (there : ∀ entry ∈ myset, elpis.deref entry.1 = some entry.2) :
    ∃ last, myset.foldlM (fun elpis entry => elpis.erase entry.1) elpis = some last ∧
      last.inserted = elpis.inserted ∧
      (∀ it elpi, last.deref it = some elpi → elpis.deref it = some elpi) ∧
      (∀ entry ∈ myset, last.deref entry.1 = none) ∧
      ∀ it, (∀ entry ∈ myset, entry.1 ≠ it) → last.deref it = elpis.deref it := by
  induction myset generalizing elpis with
  | nil => exact ⟨elpis, rfl, rfl, fun _ _ found => found, nofun, fun _ _ => rfl⟩
  | cons entry rest ih =>
    simp only [List.map_cons, List.nodup_cons, List.mem_map, not_exists, not_and] at distinct
    obtain ⟨first, others⟩ := List.forall_mem_cons.mp there
    obtain ⟨erased, ran, inserted, gone, kept⟩ := erase_spec first
    have stay : ∀ later ∈ rest, erased.deref later.1 = some later.2 := by
      intro later member
      rw [kept later.1 (distinct.1 later member)]
      exact others later member
    obtain ⟨last, ranRest, insertedRest, origin, erasedRest, frame⟩ := ih distinct.2 stay
    refine ⟨last, by simp [ran, ranRest], insertedRest.trans inserted, fun it elpi found => ?_,
      List.forall_mem_cons.mpr ⟨?_, erasedRest⟩, fun it apart => ?_⟩
    · have before := origin it elpi found
      by_cases same : it = entry.1
      · rw [same, gone] at before
        exact nomatch before
      · rwa [kept it same] at before
    · rw [frame entry.1 fun later member same => distinct.1 later member same, gone]
    · rw [frame it fun later member => apart later (List.mem_cons_of_mem _ member)]
      exact kept it (Ne.symm (apart entry List.mem_cons_self))

end ElpiList

namespace ElpiHistory

/-- What the elimination has collected: distinct nodes of the given iterators. -/
structure Collected (elpis : ElpiList) (iters : List ℕ) (myset : List (ℕ × Elpi)) : Prop where
  distinct : (myset.map Prod.fst).Nodup
  there : ∀ entry ∈ myset, entry.1 ∈ iters ∧ elpis.deref entry.1 = some entry.2

section
variable {elpis : ElpiList} {iters : List ℕ} {myset : List (ℕ × Elpi)} {it : ℕ} {elpi : Elpi}

theorem Collected.empty : Collected elpis iters [] where
  distinct := List.nodup_nil
  there _ member := nomatch member

theorem equivalent_self (elpi : Elpi) : elpi.equivalent elpi = true := by simp [Elpi.equivalent]

theorem Collected.insertIter (collected : Collected elpis iters myset) (member : it ∈ iters)
    (found : elpis.deref it = some elpi) : Collected elpis iters (insertIter myset it elpi) := by
  unfold ElpiHistory.insertIter
  split
  · exact collected
  · next fresh =>
      refine ⟨?_, List.forall_mem_cons.mpr ⟨⟨member, found⟩, collected.there⟩⟩
      rw [List.map_cons, List.nodup_cons]
      refine ⟨fun inside => fresh ?_, collected.distinct⟩
      -- an entry for the same node holds the same record
      obtain ⟨entry, inside, same⟩ := List.mem_map.mp inside
      have stored := (collected.there entry inside).2
      simp only [same, found, Option.some.injEq] at stored
      exact List.any_eq_true.mpr ⟨entry, inside, stored ▸ equivalent_self elpi⟩

/-- What insertions of compared records preserve, the inner loop preserves. -/
theorem collectFrom_rule {I : List (ℕ × Elpi) → Prop} {R : ℕ → ℕ → Prop}
    (insert : ∀ {myset it it2 elpi elpi2}, it ∈ iters → it2 ∈ iters → elpis.deref it = some elpi →
      elpis.deref it2 = some elpi2 → elpi.Covers elpi2 → R it it2 ∨ ¬ elpi2.Covers elpi → I myset →
      I (ElpiHistory.insertIter myset it elpi))
    (valid : ∀ it ∈ iters, ∃ elpi, elpis.deref it = some elpi) (member : it ∈ iters) (rest : List ℕ)
    (inside : ∀ other ∈ rest, other ∈ iters) (ordered : ∀ other ∈ rest, R it other) (start : I myset) :
    ∃ last, collectFrom elpis it myset rest = some last ∧ I last := by
  induction rest generalizing myset with
  | nil => exact ⟨myset, rfl, start⟩
  | cons it2 rest ih =>
    obtain ⟨member2, inside⟩ := List.forall_mem_cons.mp inside
    obtain ⟨before, ordered⟩ := List.forall_mem_cons.mp ordered
    obtain ⟨elpi, found⟩ := valid it member
    obtain ⟨elpi2, found2⟩ := valid it2 member2
    simp only [collectFrom, found, found2, Option.bind_eq_bind, Option.bind_some, Bool.and_eq_true, decide_eq_true_eq]
    split
    · next covers => exact ih inside ordered (insert member member2 found found2 covers (Or.inl before) start)
    · next covers =>
        split
        · next covered => exact ih inside ordered (insert member2 member found2 found ⟨covered.1.symm, covered.2⟩
            (Or.inr covers) start)
        · exact ih inside ordered start

theorem collect_rule {I : List (ℕ × Elpi) → Prop} {R : ℕ → ℕ → Prop}
    (insert : ∀ {myset it it2 elpi elpi2}, it ∈ iters → it2 ∈ iters → elpis.deref it = some elpi →
      elpis.deref it2 = some elpi2 → elpi.Covers elpi2 → R it it2 ∨ ¬ elpi2.Covers elpi → I myset →
      I (ElpiHistory.insertIter myset it elpi))
    (valid : ∀ it ∈ iters, ∃ elpi, elpis.deref it = some elpi) (rest : List ℕ) (inside : ∀ it ∈ rest, it ∈ iters)
    (ordered : rest.Pairwise R) (start : I myset) : ∃ last, collect elpis myset rest = some last ∧ I last := by
  induction rest generalizing myset with
  | nil => exact ⟨myset, rfl, start⟩
  | cons it rest ih =>
    obtain ⟨member, inside⟩ := List.forall_mem_cons.mp inside
    obtain ⟨before, ordered⟩ := List.pairwise_cons.mp ordered
    obtain ⟨middle, ran, holds⟩ := collectFrom_rule insert valid member rest inside before start
    obtain ⟨last, ranRest, holds⟩ := ih inside ordered holds
    exact ⟨last, by simp [collect, ran, ranRest], holds⟩

theorem collect_spec (valid : ∀ it ∈ iters, ∃ elpi, elpis.deref it = some elpi) :
    ∃ last, collect elpis [] iters = some last ∧ Collected elpis iters last :=
  collect_rule (fun member _ found _ _ _ collected => collected.insertIter member found) valid iters
    (fun _ member => member) (List.pairwise_of_forall fun _ _ => trivial) .empty

end
end ElpiHistory

section
variable {unitSize : Address} {tr : List Hook} {epoch epoch' : Stamps} {n : ℕ} {x : Address}
  {k : RaceEventType} {h : ElpiHistory} {m : HistLockPlusMeta} {b : DetectorBase HistLockPlusOwn}
  {curr : ThreadId} {inst : InstId} {currVc : VectorClock} {callsite : Address}

theorem HistoryReal.blank : HistoryReal unitSize tr epoch 0 x k {} where
  entry it elpi found := by simp [ElpiList.deref] at found
  below it elpi found := by simp [ElpiList.deref] at found
  valid t it member := by simp [ElpiHistory.callsite] at member

theorem HistoryReal.restamp (real : HistoryReal unitSize tr epoch n x k h)
    (same : ∀ i < n, epoch' i = epoch i) : HistoryReal unitSize tr epoch' n x k h :=
  ⟨fun it elpi found => (real.entry it elpi found).restamp same, real.below, real.valid⟩

theorem HistoryReal.later (real : HistoryReal unitSize tr epoch n x k h) :
    HistoryReal unitSize tr epoch (n + 1) x k h :=
  ⟨fun it elpi found => (real.entry it elpi found).later, real.below, real.valid⟩

theorem HistoryReal.records (real : HistoryReal unitSize tr epoch n x k h) :
    ∀ r ∈ h.records, r.1.1 ≠ {} → LockEntry unitSize tr epoch n k x r.1 r.2 := by
  intro r member _
  obtain ⟨⟨it, elpi⟩, stored, rfl⟩ := List.mem_map.mp member
  exact real.entry it elpi (Std.ExtTreeMap.mem_toList_iff_getElem?_eq_some.mp stored)

/-- The elimination erases records of the current thread only, so that the
iterators of the others stay valid. -/
theorem HistoryReal.eliminate (real : HistoryReal unitSize tr epoch n x k h) (curr : ThreadId)
    (callsite : Address) : ∃ next, h.eliminate curr callsite = some next ∧
      HistoryReal unitSize tr epoch n x k next := by
  unfold ElpiHistory.eliminate
  split
  · have valid : ∀ it ∈ (h.callsite curr).2, ∃ elpi, h.elpiList.deref it = some elpi := by
      intro it member
      obtain ⟨elpi, found, -⟩ := real.valid curr it member
      exact ⟨elpi, found⟩
    obtain ⟨myset, ran, collected⟩ := ElpiHistory.collect_spec valid
    obtain ⟨last, erased, inserted, origin, _, frame⟩ := ElpiList.eraseAll_spec myset collected.distinct
      fun entry member => (collected.there entry member).2
    refine ⟨_, by simp only [ran, erased, Option.bind_eq_bind, Option.bind_some]; rfl, ?_, ?_, ?_⟩
    · exact fun it elpi found => real.entry it elpi (origin it elpi found)
    · intro it elpi found
      rw [inserted]
      exact real.below it elpi (origin it elpi found)
    · intro t it member
      simp only [ElpiHistory.callsite, getElem?_insert_thread] at member
      split at member
      · exact nomatch member
      · next other =>
          obtain ⟨elpi, found, tid⟩ := real.valid t it member
          refine ⟨elpi, ?_, tid⟩
          rw [frame it, found]
          rintro entry inside rfl
          obtain ⟨own, there⟩ := collected.there entry inside
          obtain ⟨elpi', found', tid'⟩ := real.valid curr entry.1 own
          cases found.symm.trans found'
          exact other (tid'.symm.trans tid)
  · exact ⟨h, rfl, real⟩

theorem HistoryReal.append (real : HistoryReal unitSize tr epoch n x k h) {elpi : Elpi}
    (entry : LockEntry unitSize tr epoch (n + 1) k x (elpi.epoch, elpi.lockset) (some elpi.inst))
    (tid : elpi.epoch.tid = curr) : HistoryReal unitSize tr epoch (n + 1) x k (h.append curr elpi) := by
  have kept : ∀ it elpi', h.elpiList.deref it = some elpi' →
      (h.elpiList.pushBack elpi).deref it = some elpi' := by
    intro it elpi' found
    have below := real.below it elpi' found
    rw [ElpiList.deref_pushBack, if_neg below.ne', found]
  have new : (h.elpiList.pushBack elpi).deref h.elpiList.inserted = some elpi := by
    rw [ElpiList.deref_pushBack, if_pos rfl]
  refine ⟨fun it elpi' found => ?_, fun it elpi' found => ?_, fun t it member => ?_⟩
  · simp only [ElpiHistory.append, ElpiList.deref_pushBack] at found
    split at found
    · cases found
      exact entry
    · exact (real.entry it elpi' found).later
  · simp only [ElpiHistory.append, ElpiList.deref_pushBack] at found
    show it < h.elpiList.inserted + 1
    split at found
    · next same => exact same ▸ Nat.lt_succ_self _
    · exact Nat.lt_succ_of_lt (real.below it elpi' found)
  · simp only [ElpiHistory.callsite, ElpiHistory.append, getElem?_insert_thread] at member ⊢
    split at member
    · next same =>
        subst same
        simp only [Option.getD_some, List.mem_append, List.mem_singleton] at member
        rcases member with member | rfl
        · obtain ⟨elpi', found, own⟩ := real.valid curr it member
          exact ⟨elpi', kept it elpi' found, own⟩
        · exact ⟨elpi, new, tid⟩
    · obtain ⟨elpi', found, own⟩ := real.valid t it member
      exact ⟨elpi', kept it elpi' found, own⟩

theorem HistLockPlusReal.read (real : HistLockPlusReal unitSize tr epoch n x m)
    (looks : Looks forkJoinOrder unitSize tr epoch n x b .read curr inst currVc)
    (locks : ∀ a, a ∈ MultiLock.locksetOf b.own.locksetMap curr ↔ Held tr n curr a) :
    ∃ next out, HistLockPlus.processRead b curr x m inst = some (next, out) ∧
      HistLockPlusReal unitSize tr epoch (n + 1) x next ∧ ∀ call ∈ out, HybridCall unitSize tr n x call := by
  have skip : HistLockPlusReal unitSize tr epoch (n + 1) x m := ⟨real.writer.later, real.reader.later⟩
  simp only [HistLockPlus.processRead, looks.found, Option.bind_eq_bind, Option.bind_some]
  split
  · exact ⟨m, [], rfl, skip, fun _ made => nomatch made⟩
  split
  · exact ⟨m, [], rfl, skip, fun _ made => nomatch made⟩
  · obtain ⟨raced, calls, ran, sound⟩ :=
      checkRecords_sound _ real.writer.records looks locks (Or.inl rfl)
    obtain ⟨reader, eliminated, kept⟩ := real.reader.eliminate curr (b.own.callsiteMap[curr]?.getD 0)
    refine ⟨_, calls, by simp only [ran, eliminated, Option.bind_some]; rfl, ?_, sound⟩
    exact ⟨real.writer.later, kept.append (LockEntry.here looks locks) rfl⟩

theorem HistLockPlusReal.write (real : HistLockPlusReal unitSize tr epoch n x m)
    (looks : Looks forkJoinOrder unitSize tr epoch n x b .write curr inst currVc)
    (locks : ∀ a, a ∈ MultiLock.locksetOf b.own.locksetMap curr ↔ Held tr n curr a) :
    ∃ next out, HistLockPlus.processWrite b curr x m inst = some (next, out) ∧
      HistLockPlusReal unitSize tr epoch (n + 1) x next ∧ ∀ call ∈ out, HybridCall unitSize tr n x call := by
  simp only [HistLockPlus.processWrite, looks.found, Option.bind_eq_bind, Option.bind_some]
  split
  · exact ⟨m, [], rfl, ⟨real.writer.later, real.reader.later⟩, fun _ made => nomatch made⟩
  · obtain ⟨racedW, callsW, ranW, soundW⟩ :=
      checkRecords_sound _ real.writer.records looks locks (Or.inl rfl)
    obtain ⟨racedR, callsR, ranR, soundR⟩ :=
      checkRecords_sound _ real.reader.records looks locks (Or.inr rfl)
    obtain ⟨writer, eliminated, kept⟩ := real.writer.eliminate curr (b.own.callsiteMap[curr]?.getD 0)
    refine ⟨_, callsW ++ callsR, by simp only [ranW, ranR, eliminated, Option.bind_some]; rfl, ?_, ?_⟩
    · exact ⟨kept.append (LockEntry.here looks locks) rfl, real.reader.later⟩
    · intro call made
      exact (List.mem_append.mp made).elim (soundW call) (soundR call)

/-- The locksets of HistLockPlus. -/
def HoldsOwn (p : Progress) (own : HistLockPlusOwn) : Prop := Holds p own.locksetMap

theorem histLockPlus_tracks : histLockPlus.Tracks forkJoinOrder gateOpen HoldsOwn UnlocksFree where
  hooks := forkJoinOrder_hooks
  gate := gate_of_counted
  start holds := holds
  join {tr n b epoch curr child} here admitted sync holds := by
    obtain ⟨joined, vc, result, found, ticked, settings, own⟩ := forkJoin_joinTick sync here admitted
    refine ⟨joined.setVc curr (vc.increment curr), ?_, ticked, settings, ?_⟩
    · simp [histLockPlus, HistLockPlus.afterPthreadJoin, result, found]
    · rw [progressAt_succ here]
      exact (own ▸ holds : HoldsOwn (progressAt tr n) joined.own)
  lock {tr n b epoch curr addr} here admitted sync holds := by
    refine ⟨_, rfl, forkJoin_lock sync here admitted _, ⟨rfl, rfl, rfl⟩, ?_⟩
    rw [progressAt_succ here]
    exact Holds.lock holds admitted.2
  unlock {tr n b epoch curr addr} frees here admitted sync holds := by
    refine ⟨_, rfl, forkJoin_unlock sync here _, ⟨rfl, rfl, rfl⟩, ?_⟩
    rw [progressAt_succ here]
    exact Holds.unlock holds admitted.2 (frees n curr addr here)

theorem histLockPlus_sound : histLockPlus.Analyses forkJoinOrder gateOpen HoldsOwn unitSize tr
    (fun _ _ => True) (HistLockPlusReal unitSize tr) (HybridCall unitSize tr) (fun _ _ _ => False) where
  blank _ _ := ⟨.blank, .blank⟩
  restamp same real := ⟨real.writer.restamp same, real.reader.restamp same⟩
  skip _ real := ⟨real.writer.later, real.reader.later⟩
  process {n d epoch k curr inst addr size x} here member _ sync stamp runs holds _ real := by
    obtain ⟨currVc, looks⟩ := exists_looks here member sync stamp runs
    have locks := holds curr
    cases k with
    | read =>
      obtain ⟨m, out, ran, kept, sound⟩ := real.read looks locks
      exact ⟨m, out, ran, kept, sound, fun _ due => due.elim⟩
    | write =>
      obtain ⟨m, out, ran, kept, sound⟩ := real.write looks locks
      exact ⟨m, out, ran, kept, sound, fun _ due => due.elim⟩

theorem histLockPlus_blind : Blind (HistLockPlusReal unitSize tr) (fun _ _ _ => False) where
  skip real := ⟨real.writer.later, real.reader.later⟩
  due _ _ _ := id

end

end Maple.Pintool
