import Maple.Lib.NodeList
import Maple.Pintool.AccuLock

/-! The HistLock detector of `pintool/histlock.cpp`. The records of a unit form a
list that all threads share; each thread remembers the positions of its records from
the current call site, and erases them when it comes from another one. The list also
loses its first record when it grows beyond the window. -/
namespace Maple.Pintool
open Race

namespace HistLock

/-- `WINDOW_SIZE` -/
def windowSize : ℕ := 100

/-- The records of one kind of access with their `CallSiteELPIListMap`. -/
structure History where
  elpiList : NodeList (Elp × InstId) := {}
  callsiteElpiMap : OrdMap ThreadId (Address × List ℕ) := ∅

namespace History

/-- `callsite_elpi_map[thd]` -/
def callsite (h : History) (thdId : ThreadId) : Address × List ℕ :=
  h.callsiteElpiMap[thdId]?.getD (0, [])

def records (h : History) : List (Elp × Option InstId) :=
  h.elpiList.nodes.map fun node => (node.2.1, some node.2.2)

/-- The test of the last record for the current epoch. -/
def lastIs (h : History) (currVc : VectorClock) : Bool :=
  h.elpiList.back.any fun last => last.1.1.equal currVc

/-- Elimination when the call site differs from that of the last access. -/
def eliminate (h : History) (curr : ThreadId) (callsite : Address) : Option History :=
  if (h.callsite curr).1 ≠ callsite then do
    let elpiList ← h.elpiList.eraseAll (h.callsite curr).2
    return ⟨elpiList, h.callsiteElpiMap.insert curr (callsite, [])⟩
  else some h

/-- Insert a record at the end and remember its position. -/
def append (h : History) (curr : ThreadId) (elpi : Elp × InstId) : History :=
  ⟨h.elpiList.pushBack elpi, h.callsiteElpiMap.insert curr
    ((h.callsite curr).1, (h.callsite curr).2 ++ [h.elpiList.inserted])⟩

/-- The bound on the list, which does not look at the positions. -/
def bounded (h : History) : History :=
  if windowSize < h.elpiList.size then { h with elpiList := h.elpiList.popFront } else h

/-- The end of `ProcessRead` and `ProcessWrite`. -/
def record (h : History) (curr : ThreadId) (callsite : Address) (elpi : Elp × InstId) : Option History := do
  let h ← h.eliminate curr callsite
  return (h.append curr elpi).bounded

end History
end HistLock

structure HistLockMeta where
  racy : Bool := false
  writer : HistLock.History := {}
  reader : HistLock.History := {}
  raceInstSet : Std.ExtTreeSet InstId := ∅

structure HistLockOwn where
  locksetMap : OrdMap ThreadId Lockset := ∅
  callsiteMap : OrdMap ThreadId Address := ∅

namespace HistLock

def beforeCall (own : HistLockOwn) (curr : ThreadId) (target : Address) : HistLockOwn :=
  { own with callsiteMap := own.callsiteMap.insert curr target }

def processLock (b : DetectorBase HistLockOwn) (curr : ThreadId) (addr : Address) :
    Option (DetectorBase HistLockOwn) :=
  some { b with own := { b.own with
    locksetMap := b.own.locksetMap.insert curr ((MultiLock.locksetOf b.own.locksetMap curr).add addr) } }

def processUnlock (b : DetectorBase HistLockOwn) (curr : ThreadId) (addr : Address) :
    Option (DetectorBase HistLockOwn) := do
  let removed := { b with own := { b.own with
    locksetMap := b.own.locksetMap.insert curr ((MultiLock.locksetOf b.own.locksetMap curr).remove addr) } }
  let currVc ← removed.currVcMap[curr]?
  return removed.setVc curr (currVc.increment curr)

/-- `callsite_map_[thd]` -/
def callsiteOf (own : HistLockOwn) (thdId : ThreadId) : Address := own.callsiteMap[thdId]?.getD 0

def processRead (b : DetectorBase HistLockOwn) (curr : ThreadId) (iaddr : Address)
    (m : HistLockMeta) (inst : InstId) : Option (HistLockMeta × List DbCall) := do
  let currVc ← b.currVcMap[curr]?
  let currLs := MultiLock.locksetOf b.own.locksetMap curr
  if m.reader.lastIs currVc then return (m, [])
  if m.writer.lastIs currVc then return (m, [])
  let (raced, calls) ← checkRecords curr currVc currLs
    (fun thdId writerInst => ⟨iaddr, thdId, writerInst, .write, curr, inst, .read⟩) m.writer.records
  let reader ← m.reader.record curr (callsiteOf b.own curr)
    ((.make curr (currVc.getClock curr), currLs), inst)
  return ({ m with
      racy := m.racy || raced
      reader := reader
      raceInstSet := trackInst b.trackRacyInst m.raceInstSet inst }, calls)

def processWrite (b : DetectorBase HistLockOwn) (curr : ThreadId) (iaddr : Address)
    (m : HistLockMeta) (inst : InstId) : Option (HistLockMeta × List DbCall) := do
  let currVc ← b.currVcMap[curr]?
  let currLs := MultiLock.locksetOf b.own.locksetMap curr
  if m.writer.lastIs currVc then return (m, [])
  let (racedWriters, calls) ← checkRecords curr currVc currLs
    (fun thdId writerInst => ⟨iaddr, thdId, writerInst, .write, curr, inst, .write⟩) m.writer.records
  let (racedReaders, moreCalls) ← checkRecords curr currVc currLs
    (fun thdId readerInst => ⟨iaddr, thdId, readerInst, .read, curr, inst, .write⟩) m.reader.records
  let writer ← m.writer.record curr (callsiteOf b.own curr)
    ((.make curr (currVc.getClock curr), currLs), inst)
  return ({ m with
      racy := m.racy || racedWriters || racedReaders
      writer := writer
      raceInstSet := trackInst b.trackRacyInst m.raceInstSet inst }, calls ++ moreCalls)

def processFree (b : DetectorBase HistLockOwn) (m : HistLockMeta) : List DbCall :=
  releaseInsts b.trackRacyInst m.racy m.raceInstSet

end HistLock

def histLock : Algorithm HistLockOwn HistLockMeta where
  newMeta := {}
  processLock := HistLock.processLock
  processUnlock := HistLock.processUnlock
  afterPthreadJoin := DetectorBase.afterPthreadJoin
  beforeCall := HistLock.beforeCall
  gate := gate
  processRead := HistLock.processRead
  processWrite := HistLock.processWrite
  processFree := HistLock.processFree

namespace HistLock
namespace History
variable {h next : History} {t curr : ThreadId} {site : Address} {elpi : Elp × InstId} {it : ℕ}

/-- Remembered positions: each is that of a record of the thread, none is kept twice. -/
structure Live (h : History) : Prop where
  stands : ∀ t, ∀ it ∈ (h.callsite t).2, ∃ elpi, h.elpiList.deref it = some elpi ∧ elpi.1.1.tid = t
  distinct : ∀ t, (h.callsite t).2.Nodup

/-- Every record is remembered by its thread. -/
def Remembered (h : History) : Prop :=
  ∀ it elpi, h.elpiList.deref it = some elpi → it ∈ (h.callsite elpi.1.1.tid).2

/-- Erasing what a thread remembers removes one record of the thread at each
position, and nothing else. -/
def ErasesOwn (h : History) (t : ThreadId) : Prop :=
  ∃ rest, h.elpiList.eraseAll (h.callsite t).2 = some rest ∧
    rest.size + (h.callsite t).2.length = h.elpiList.size ∧
    ∀ it elpi, h.elpiList.deref it = some elpi →
      rest.deref it = some elpi ∨ it ∈ (h.callsite t).2 ∧ elpi.1.1.tid = t

theorem Live.inside (live : h.Live) (t : ThreadId) : ∀ it ∈ (h.callsite t).2, it ∈ h.elpiList.iters := by
  intro it member
  obtain ⟨elpi, found, _⟩ := live.stands t it member
  exact NodeList.mem_iters.mpr ⟨elpi, found⟩

theorem Live.erases (live : h.Live) (t : ThreadId) : h.ErasesOwn t := by
  refine ⟨_, NodeList.eraseAll_eq (live.inside t) (live.distinct t),
    NodeList.size_restrict (live.inside t) (live.distinct t), fun it elpi found => ?_⟩
  by_cases member : it ∈ (h.callsite t).2
  · obtain ⟨elpi', found', tid⟩ := live.stands t it member
    cases found.symm.trans found'
    exact Or.inr ⟨member, tid⟩
  · exact Or.inl ((NodeList.deref_restrict _).mpr ⟨found, decide_eq_true member⟩)

theorem Live.blank : Live {} where
  stands t it member := by simp [callsite] at member
  distinct t := by simp [callsite]

theorem Remembered.blank : Remembered {} := by
  intro it elpi found
  simp [NodeList.deref] at found

/-- Positions that an access of the current thread erases. -/
def erased (h : History) (curr : ThreadId) (site : Address) : List ℕ :=
  if (h.callsite curr).1 ≠ site then (h.callsite curr).2 else []

theorem callsite_insert (l : NodeList (Elp × InstId)) (map : OrdMap ThreadId (Address × List ℕ))
    (entry : Address × List ℕ) :
    History.callsite ⟨l, map.insert curr entry⟩ t = if curr = t then entry else History.callsite ⟨l, map⟩ t := by
  simp only [callsite, getElem?_insert_thread]
  split <;> rfl

/-- What an elimination does to a history whose positions are live. -/
theorem Live.eliminate (live : h.Live) (remembered : h.Remembered) (curr : ThreadId) (site : Address) :
    ∃ next, h.eliminate curr site = some next ∧ next.Live ∧ next.Remembered ∧
      next.elpiList.size + (h.erased curr site).length = h.elpiList.size ∧
      next.elpiList.inserted = h.elpiList.inserted := by
  by_cases same : (h.callsite curr).1 = site
  · refine ⟨h, ?_, live, remembered, ?_, rfl⟩
    · rw [History.eliminate, if_neg (not_not.mpr same)]
    · rw [erased, if_neg (not_not.mpr same), List.length_nil, Nat.add_zero]
  · let rest := h.elpiList.restrict (· ∉ (h.callsite curr).2)
    have erases : h.elpiList.eraseAll (h.callsite curr).2 = some rest :=
      NodeList.eraseAll_eq (live.inside curr) (live.distinct curr)
    have kept : ∀ it elpi, rest.deref it = some elpi ↔
        h.elpiList.deref it = some elpi ∧ it ∉ (h.callsite curr).2 := by
      intro it elpi
      rw [NodeList.deref_restrict, decide_eq_true_eq]
    have others : ∀ t it, it ∈ (History.callsite ⟨rest, h.callsiteElpiMap.insert curr (site, [])⟩ t).2 ↔
        curr ≠ t ∧ it ∈ (h.callsite t).2 := by
      intro t it
      rw [callsite_insert]
      split
      · next own => exact ⟨(fun member => nomatch member), fun both => absurd own both.1⟩
      · next own => exact ⟨fun member => ⟨own, member⟩, And.right⟩
    refine ⟨⟨rest, h.callsiteElpiMap.insert curr (site, [])⟩, by rw [History.eliminate, if_pos same, erases]; rfl,
      ⟨fun t it member => ?_, fun t => ?_⟩, fun it elpi found => ?_, ?_, rfl⟩
    · obtain ⟨other, member⟩ := (others t it).mp member
      obtain ⟨elpi, found, tid⟩ := live.stands t it member
      refine ⟨elpi, (kept it elpi).mpr ⟨found, fun own => other ?_⟩, tid⟩
      obtain ⟨elpi', found', tid'⟩ := live.stands curr it own
      cases found.symm.trans found'
      exact tid'.symm.trans tid
    · rw [callsite_insert]
      split
      · exact List.nodup_nil
      · exact live.distinct t
    · obtain ⟨there, stays⟩ := (kept it elpi).mp found
      have member := remembered it elpi there
      refine (others _ it).mpr ⟨fun own => stays ?_, member⟩
      rw [own]
      exact member
    · rw [erased, if_pos same]
      exact NodeList.size_restrict (live.inside curr) (live.distinct curr)

theorem mem_callsite_append : it ∈ ((h.append curr elpi).callsite t).2 ↔
    it ∈ (h.callsite t).2 ∨ curr = t ∧ it = h.elpiList.inserted := by
  rw [append, callsite_insert]
  split
  · next own =>
    subst own
    simp only [List.mem_append, List.mem_singleton, true_and]
  · next other => exact ⟨Or.inl, fun either => either.resolve_right fun both => other both.1⟩

/-- A position beyond the end is not remembered yet. -/
theorem Live.below (live : h.Live) {it : ℕ} (member : it ∈ (h.callsite t).2) : it < h.elpiList.inserted :=
  h.elpiList.below it (live.inside t it member)

theorem Live.append (live : h.Live) (own : elpi.1.1.tid = curr) : (h.append curr elpi).Live where
  stands t it member := by
    rcases mem_callsite_append.mp member with member | ⟨rfl, rfl⟩
    · obtain ⟨elpi', found, tid⟩ := live.stands t it member
      exact ⟨elpi', NodeList.deref_pushBack.mpr (Or.inl found), tid⟩
    · exact ⟨elpi, NodeList.deref_pushBack.mpr (Or.inr ⟨rfl, rfl⟩), own⟩
  distinct t := by
    rw [History.append, callsite_insert]
    split
    · refine List.nodup_append.mpr ⟨live.distinct curr, List.pairwise_singleton _ _, fun it member other same => ?_⟩
      rw [List.mem_singleton.mp same]
      exact (live.below member).ne
    · exact live.distinct t

theorem Remembered.append (remembered : h.Remembered) (own : elpi.1.1.tid = curr) :
    (h.append curr elpi).Remembered := by
  intro it elpi' found
  rw [mem_callsite_append]
  rcases NodeList.deref_pushBack.mp found with found | ⟨rfl, rfl⟩
  · exact Or.inl (remembered it elpi' found)
  · exact Or.inr ⟨own.symm, rfl⟩

/-- Dropping the first record leaves a position of its thread behind. -/
theorem not_live_popFront (remembered : h.Remembered) (filled : 0 < h.elpiList.size) :
    ¬ Live { h with elpiList := h.elpiList.popFront } := by
  intro live
  obtain ⟨first, others, split⟩ := List.exists_cons_of_ne_nil (List.ne_nil_of_length_pos filled)
  have found : h.elpiList.deref first.1 = some first.2 := by
    rw [NodeList.deref_iff, split]
    exact List.mem_cons_self
  obtain ⟨elpi, still, _⟩ := live.stands _ _ (remembered _ _ found)
  have later : first.1 ∈ h.elpiList.iters.tail := by
    rw [← NodeList.iters_popFront]
    exact NodeList.mem_iters.mpr ⟨elpi, still⟩
  have distinct := h.elpiList.nodup_iters
  rw [show h.elpiList.iters = first.1 :: others.map Prod.fst by rw [NodeList.iters, split]; rfl] at later distinct
  exact (List.nodup_cons.mp distinct).1 later

/-- There is room in the window once the erased records are gone. -/
def Fits (h : History) (curr : ThreadId) (site : Address) : Prop :=
  h.elpiList.size < windowSize + (h.erased curr site).length

instance (h : History) (curr : ThreadId) (site : Address) : Decidable (h.Fits curr site) :=
  inferInstanceAs (Decidable (_ < _))

/-- A recorded access keeps the positions live exactly when the window has room. -/
theorem Live.record (live : h.Live) (remembered : h.Remembered) (own : elpi.1.1.tid = curr) (site : Address) :
    ∃ next, h.record curr site elpi = some next ∧ (h.Fits curr site → next.Live ∧ next.Remembered) ∧
      (next.Live → h.Fits curr site) := by
  obtain ⟨middle, ran, kept, knows, sizes, _⟩ := live.eliminate remembered curr site
  have grown : (middle.append curr elpi).elpiList.size = middle.elpiList.size + 1 := NodeList.size_pushBack
  refine ⟨_, by rw [History.record, ran]; rfl, fun fits => ?_, fun still => ?_⟩
  · rw [Fits] at fits
    rw [bounded, if_neg (by omega)]
    exact ⟨kept.append own, knows.append own⟩
  · by_contra full
    rw [Fits] at full
    rw [bounded, if_pos (by omega)] at still
    exact not_live_popFront (knows.append own) (by omega) still

end History

/-- One call of `ProcessRead` or `ProcessWrite` on a unit, with the members of the
detector at that time: clocks, locksets and call sites are any. -/
structure Call where
  kind : RaceEventType
  base : DetectorBase HistLockOwn
  curr : ThreadId
  inst : InstId

def step (iaddr : Address) (m : HistLockMeta) (c : Call) : Option (HistLockMeta × List DbCall) :=
  histLock.process c.kind c.base c.curr iaddr m c.inst

end HistLock

namespace HistLockMeta

def history (m : HistLockMeta) : RaceEventType → HistLock.History
  | .read => m.reader
  | .write => m.writer

/-- The access returns before it is recorded. -/
def skips (m : HistLockMeta) (currVc : VectorClock) : RaceEventType → Bool
  | .read => m.reader.lastIs currVc || m.writer.lastIs currVc
  | .write => m.writer.lastIs currVc

/-- A call that is recorded finds room in the window. -/
def Fits (m : HistLockMeta) (c : HistLock.Call) : Prop :=
  ∀ currVc ∈ c.base.currVcMap[c.curr]?, m.skips currVc c.kind = false →
    (m.history c.kind).Fits c.curr (HistLock.callsiteOf c.base.own c.curr)

instance (m : HistLockMeta) (c : HistLock.Call) : Decidable (m.Fits c) := by
  unfold Fits
  infer_instance

structure Whole (m : HistLockMeta) : Prop where
  live : ∀ k, (m.history k).Live
  remembered : ∀ k, (m.history k).Remembered

end HistLockMeta

namespace HistLock
variable {m : HistLockMeta} {iaddr : Address} {c : Call} {currVc : VectorClock} {curr : ThreadId}

variable (curr currVc) in
theorem checkRecords_named (currLs : Lockset) (report : ThreadId → InstId → RaceReport)
    (records : List (Elp × Option InstId)) (named : ∀ r ∈ records, ∃ inst, r.2 = some inst) :
    ∃ raced calls, checkRecords curr currVc currLs report records = some (raced, calls) := by
  induction records with
  | nil => exact ⟨false, [], rfl⟩
  | cons r rest ih =>
    obtain ⟨⟨inst, found⟩, named⟩ := List.forall_mem_cons.mp named
    obtain ⟨racedLater, later, ranLater⟩ := ih named
    have first : ∃ raced calls, checkRecord curr currVc currLs report r.1 r.2 = some (raced, calls) := by
      rw [found, checkRecord]
      split
      · split
        · exact ⟨true, _, rfl⟩
        · exact ⟨true, [], rfl⟩
      · exact ⟨false, [], rfl⟩
    obtain ⟨raced, calls, ran⟩ := first
    exact ⟨raced || racedLater, calls ++ later, by simp [checkRecords, ran, ranLater]⟩

theorem History.named (h : History) : ∀ r ∈ h.records, ∃ inst, r.2 = some inst := by
  intro r member
  obtain ⟨node, _, rfl⟩ := List.mem_map.mp member
  exact ⟨node.2.2, rfl⟩

variable (iaddr) in
/-- A call that is not skipped changes the records of its own kind. -/
theorem step_recorded (found : c.base.currVcMap[c.curr]? = some currVc) (looked : m.skips currVc c.kind = false)
    {next : History} (recorded : (m.history c.kind).record c.curr (callsiteOf c.base.own c.curr)
      ((.make c.curr (currVc.getClock c.curr), MultiLock.locksetOf c.base.own.locksetMap c.curr), c.inst) = some next) :
    ∃ m' calls, step iaddr m c = some (m', calls) ∧ m'.history c.kind = next ∧
      ∀ k, k ≠ c.kind → m'.history k = m.history k := by
  obtain ⟨kind, base, curr, inst⟩ := c
  cases kind with
  | read =>
    obtain ⟨readers, writers⟩ := Bool.or_eq_false_iff.mp looked
    obtain ⟨raced, calls, ran⟩ := checkRecords_named currVc curr
      (MultiLock.locksetOf base.own.locksetMap curr)
      (fun thdId writerInst => ⟨iaddr, thdId, writerInst, .write, curr, inst, .read⟩) _ m.writer.named
    simp only [HistLockMeta.history] at recorded
    refine ⟨{ m with
        racy := m.racy || raced
        reader := next
        raceInstSet := trackInst base.trackRacyInst m.raceInstSet inst }, calls, ?_, rfl, ?_⟩
    · simp only at found
      simp [step, Algorithm.process, histLock, processRead, found, readers, writers, ran, recorded]
    · rintro (_ | _) other
      · exact absurd rfl other
      · rfl
  | write =>
    obtain ⟨racedW, callsW, ranW⟩ := checkRecords_named currVc curr
      (MultiLock.locksetOf base.own.locksetMap curr)
      (fun thdId writerInst => ⟨iaddr, thdId, writerInst, .write, curr, inst, .write⟩) _ m.writer.named
    obtain ⟨racedR, callsR, ranR⟩ := checkRecords_named currVc curr
      (MultiLock.locksetOf base.own.locksetMap curr)
      (fun thdId readerInst => ⟨iaddr, thdId, readerInst, .read, curr, inst, .write⟩) _ m.reader.named
    simp only [HistLockMeta.history] at recorded
    refine ⟨{ m with
        racy := m.racy || racedW || racedR
        writer := next
        raceInstSet := trackInst base.trackRacyInst m.raceInstSet inst }, callsW ++ callsR, ?_, rfl, ?_⟩
    · simp only [HistLockMeta.skips] at found looked
      simp [step, Algorithm.process, histLock, processWrite, found, looked, ranW, ranR, recorded]
    · rintro (_ | _) other
      · rfl
      · exact absurd rfl other

theorem step_skipped (found : c.base.currVcMap[c.curr]? = some currVc) (skipped : m.skips currVc c.kind = true) :
    step iaddr m c = some (m, []) := by
  obtain ⟨kind, base, curr, inst⟩ := c
  simp only [HistLockMeta.skips] at found skipped
  cases kind with
  | read =>
    cases readers : m.reader.lastIs currVc with
    | true => simp [step, Algorithm.process, histLock, processRead, found, readers]
    | false =>
      have writers : m.writer.lastIs currVc = true := by simpa [readers] using skipped
      simp [step, Algorithm.process, histLock, processRead, found, readers, writers]
  | write => simp [step, Algorithm.process, histLock, processWrite, found, skipped]

theorem step_clockless (missing : c.base.currVcMap[c.curr]? = none) : step iaddr m c = none := by
  obtain ⟨kind, base, curr, inst⟩ := c
  simp only at missing
  cases kind with
  | read => simp [step, Algorithm.process, histLock, processRead, missing]
  | write => simp [step, Algorithm.process, histLock, processWrite, missing]

variable (iaddr) in
/-- One call: it does not fail, and keeps the positions live exactly when it fits. -/
theorem step_whole (whole : m.Whole) (found : c.base.currVcMap[c.curr]? = some currVc) :
    ∃ next calls, step iaddr m c = some (next, calls) ∧ (m.Fits c → next.Whole) ∧
      ((∀ k, (next.history k).Live) → m.Fits c) := by
  cases looked : m.skips currVc c.kind with
  | true =>
    refine ⟨m, [], step_skipped found looked, fun _ => whole, fun _ vc same looks => ?_⟩
    cases found.symm.trans same
    exact absurd looks (by simp [looked])
  | false =>
    let elpi : Elp × InstId :=
      ((.make c.curr (currVc.getClock c.curr), MultiLock.locksetOf c.base.own.locksetMap c.curr), c.inst)
    obtain ⟨history, recorded, keeps, needs⟩ := (whole.live c.kind).record (whole.remembered c.kind)
      (show elpi.1.1.tid = c.curr from rfl) (callsiteOf c.base.own c.curr)
    obtain ⟨next, calls, stepped, own, others⟩ := step_recorded iaddr found looked recorded
    refine ⟨next, calls, stepped, fun fits => ?_, fun live vc same _ => ?_⟩
    · have kept := keeps (fits currVc found looked)
      have both : ∀ k, (next.history k).Live ∧ (next.history k).Remembered := by
        intro k
        by_cases same : k = c.kind
        · rw [same, own]
          exact kept
        · rw [others k same]
          exact ⟨whole.live k, whole.remembered k⟩
      exact ⟨fun k => (both k).1, fun k => (both k).2⟩
    · cases found.symm.trans same
      exact needs (own ▸ live c.kind)

theorem whole_blank : HistLockMeta.Whole {} where
  live k := by cases k <;> exact History.Live.blank
  remembered k := by cases k <;> exact History.Remembered.blank

theorem fits_clockless (missing : c.base.currVcMap[c.curr]? = none) : m.Fits c := by
  intro vc found
  exact nomatch missing.symm.trans found

theorem whole_at {calls : List Call} {n : ℕ}
    (fits : ∀ n m c, Runs.At (step iaddr) {} calls n m → calls[n]? = some c → m.Whole → m.Fits c)
    (reached : Runs.At (step iaddr) {} calls n m) : m.Whole := by
  refine reached.invariant whole_blank fun n m c next out here at_n whole stepped => ?_
  cases found : c.base.currVcMap[c.curr]? with
  | none => exact nomatch (step_clockless found).symm.trans stepped
  | some currVc =>
    obtain ⟨next', out', stepped', keeps, _⟩ := step_whole iaddr whole found
    cases stepped.symm.trans stepped'
    exact keeps (fits n m c at_n here whole)

/-- What is remembered stays valid through all calls exactly when the window has
room at each of them. -/
theorem positions_live_iff (iaddr : Address) (calls : List Call) :
    (∀ n m, Runs.At (step iaddr) {} calls n m → ∀ k, (m.history k).Live ∧ ∀ t, (m.history k).ErasesOwn t) ↔
      ∀ n m c, Runs.At (step iaddr) {} calls n m → calls[n]? = some c → m.Fits c := by
  constructor
  · intro live
    have fits : ∀ n m c, Runs.At (step iaddr) {} calls n m → calls[n]? = some c → m.Whole → m.Fits c := by
      intro n m c at_n here whole
      cases found : c.base.currVcMap[c.curr]? with
      | none => exact fits_clockless found
      | some currVc =>
        obtain ⟨next, out, stepped, _, needs⟩ := step_whole iaddr whole found
        exact needs fun k => (live (n + 1) next (at_n.succ here stepped) k).1
    exact fun n m c at_n here => fits n m c at_n here (whole_at fits at_n)
  · intro fits n m at_n k
    have whole := whole_at (fun n m c at_n here _ => fits n m c at_n here) at_n
    exact ⟨whole.live k, (whole.live k).erases⟩

/-- Threads 1 and 2 read in turn, neither of them synchronised with the other. -/
def turn (site : Address) (n : ℕ) : Call where
  kind := .read
  base := { unitSize := 4, trackRacyInst := false, filter := {},
            currVcMap := (∅ : OrdMap ThreadId VectorClock).insert 1 (({} : VectorClock).increment 1)
              |>.insert 2 (({} : VectorClock).increment 2),
            own := { callsiteMap := (∅ : OrdMap ThreadId Address).insert 1 site } }
  curr := 1 + n % 2
  inst := 7

def turns : List Call := (List.range (windowSize + 1)).map (turn 64)

/-- The read that fills the window leaves the position of the first one behind, and
thread 1 erases at it when it reads from another call site. -/
theorem position_dangles : (∃ m, Runs.At (step 8) {} turns (windowSize + 1) m ∧
      ∃ it ∈ (m.reader.callsite 1).2, m.reader.elpiList.deref it = none) ∧
    Runs.run (step 8) {} (turns ++ [turn 64 1, turn 72 0]) = none := by
  have dangling : (Runs.run (step 8) {} turns).any (fun r =>
      (r.1.reader.callsite 1).2.any fun it => (r.1.reader.elpiList.deref it).isNone) = true := by decide +kernel
  obtain ⟨⟨m, outs⟩, ran, test⟩ := (Option.any_eq_true _ _).mp dangling
  obtain ⟨it, member, gone⟩ := List.any_eq_true.mp test
  refine ⟨⟨m, ⟨outs, ran⟩, it, member, Option.isNone_iff_eq_none.mp gone⟩, ?_⟩
  have fails : (Runs.run (step 8) {} (turns ++ [turn 64 1, turn 72 0])).isNone = true := by decide +kernel
  exact Option.isNone_iff_eq_none.mp fails

end HistLock
end Maple.Pintool
