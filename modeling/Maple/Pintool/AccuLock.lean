import Maple.Pintool.LockRecords

/-! The AccuLock detector of `pintool/acculock.cpp`. Its clocks follow thread start
and join and advance at unlock; each thread's last read and the last write are kept
with their locksets. -/
namespace Maple.Pintool
open Race

structure AccuLockMeta where
  racy : Bool := false
  writerElp : Elp := ({}, {})
  readerElpMap : OrdMap ThreadId Elp := ∅
  writerInst : Option InstId := none
  readerInstTable : OrdMap ThreadId InstId := ∅
  raceInstSet : Std.ExtTreeSet InstId := ∅

namespace AccuLock

def processLock (b : DetectorBase (OrdMap ThreadId Lockset)) (curr : ThreadId) (addr : Address) :
    Option (DetectorBase (OrdMap ThreadId Lockset)) :=
  some { b with own := b.own.insert curr ((MultiLock.locksetOf b.own curr).add addr) }

def processUnlock (b : DetectorBase (OrdMap ThreadId Lockset)) (curr : ThreadId) (addr : Address) :
    Option (DetectorBase (OrdMap ThreadId Lockset)) := do
  let removed := { b with own := b.own.insert curr ((MultiLock.locksetOf b.own curr).remove addr) }
  let currVc ← removed.currVcMap[curr]?
  return removed.setVc curr (currVc.increment curr)

/-- `reader_elp_map[thd]`, which creates a missing entry. -/
def ensureReader (m : AccuLockMeta) (thdId : ThreadId) : AccuLockMeta :=
  if thdId ∈ m.readerElpMap then m
  else { m with readerElpMap := m.readerElpMap.insert thdId ({}, {}) }

/-- The reader records with the instruction that each would be reported with. -/
def readerRecords (m : AccuLockMeta) : List (Elp × Option InstId) :=
  m.readerElpMap.toList.map fun entry => (entry.2, m.readerInstTable[entry.2.1.tid]?)

def processRead (b : DetectorBase (OrdMap ThreadId Lockset)) (curr : ThreadId) (iaddr : Address)
    (m : AccuLockMeta) (inst : InstId) : Option (AccuLockMeta × List DbCall) := do
  let currVc ← b.currVcMap[curr]?
  let currLs := MultiLock.locksetOf b.own curr
  let m := ensureReader m curr
  let readerEpoch := (m.readerElpMap[curr]?.getD ({}, {})).1
  if readerEpoch.equal currVc || m.writerElp.1.equal currVc then return (m, [])
  let (raced, calls) ← checkRecord curr currVc currLs
    (fun thdId writerInst => ⟨iaddr, thdId, writerInst, .write, curr, inst, .read⟩)
    m.writerElp m.writerInst
  return ({ m with
      racy := m.racy || raced
      readerElpMap := m.readerElpMap.insert curr (.make curr (currVc.getClock curr), currLs)
      readerInstTable := m.readerInstTable.insert curr inst
      raceInstSet := trackInst b.trackRacyInst m.raceInstSet inst }, calls)

def processWrite (b : DetectorBase (OrdMap ThreadId Lockset)) (curr : ThreadId) (iaddr : Address)
    (m : AccuLockMeta) (inst : InstId) : Option (AccuLockMeta × List DbCall) := do
  let currVc ← b.currVcMap[curr]?
  let currLs := MultiLock.locksetOf b.own curr
  if m.writerElp.1.equal currVc then return (m, [])
  let (racedWriter, calls) ← checkRecord curr currVc currLs
    (fun thdId writerInst => ⟨iaddr, thdId, writerInst, .write, curr, inst, .write⟩)
    m.writerElp m.writerInst
  let (racedReaders, moreCalls) ← checkRecords curr currVc currLs
    (fun thdId readerInst => ⟨iaddr, thdId, readerInst, .read, curr, inst, .write⟩) (readerRecords m)
  return ({ m with
      racy := m.racy || racedWriter || racedReaders
      readerElpMap := ∅
      writerElp := (.make curr (currVc.getClock curr), currLs)
      writerInst := some inst
      raceInstSet := trackInst b.trackRacyInst m.raceInstSet inst }, calls ++ moreCalls)

def processFree (b : DetectorBase (OrdMap ThreadId Lockset)) (m : AccuLockMeta) : List DbCall :=
  releaseInsts b.trackRacyInst m.racy m.raceInstSet

end AccuLock

def accuLock : Algorithm (OrdMap ThreadId Lockset) AccuLockMeta where
  newMeta := {}
  processLock := AccuLock.processLock
  processUnlock := AccuLock.processUnlock
  afterPthreadJoin := DetectorBase.afterPthreadJoin
  beforeCall own _ _ := own
  gate := gate
  processRead := AccuLock.processRead
  processWrite := AccuLock.processWrite
  processFree := AccuLock.processFree

/-- Each record that AccuLock keeps was made by one access. -/
structure AccuLockReal (unitSize : Address) (tr : List Hook) (epoch : Stamps) (n : ℕ) (x : Address)
    (m : AccuLockMeta) : Prop where
  writer : m.writerElp.1 ≠ {} → LockEntry unitSize tr epoch n .write x m.writerElp m.writerInst
  readers : ∀ (t : ThreadId) (elp : Elp), m.readerElpMap[t]? = some elp → elp.1 ≠ {} →
    elp.1.tid = t ∧ LockEntry unitSize tr epoch n .read x elp m.readerInstTable[t]?

section
variable {unitSize : Address} {tr : List Hook} {epoch epoch' : Stamps} {n : ℕ} {x : Address}
  {m : AccuLockMeta} {b : DetectorBase (OrdMap ThreadId Lockset)} {curr : ThreadId} {inst : InstId}
  {currVc : VectorClock}

theorem AccuLockReal.blank : AccuLockReal unitSize tr epoch 0 x {} where
  writer used := absurd rfl used
  readers t elp found := by simp at found

theorem AccuLockReal.restamp (real : AccuLockReal unitSize tr epoch n x m)
    (same : ∀ i < n, epoch' i = epoch i) : AccuLockReal unitSize tr epoch' n x m where
  writer used := (real.writer used).restamp same
  readers t elp found used := (real.readers t elp found used).imp_right fun entry => entry.restamp same

theorem AccuLockReal.later (real : AccuLockReal unitSize tr epoch n x m) :
    AccuLockReal unitSize tr epoch (n + 1) x m where
  writer used := (real.writer used).later
  readers t elp found used := (real.readers t elp found used).imp_right LockEntry.later

/-- An entry that was just created has a blank epoch. -/
theorem AccuLockReal.ensureReader (real : AccuLockReal unitSize tr epoch n x m) (t : ThreadId) :
    AccuLockReal unitSize tr epoch n x (AccuLock.ensureReader m t) := by
  unfold AccuLock.ensureReader
  split
  · exact real
  · refine ⟨real.writer, fun u elp found used => ?_⟩
    simp only [getElem?_insert_thread] at found
    split at found
    · cases found
      exact absurd rfl used
    · exact real.readers u elp found used

theorem AccuLockReal.records (real : AccuLockReal unitSize tr epoch n x m) :
    ∀ r ∈ AccuLock.readerRecords m, r.1.1 ≠ {} → LockEntry unitSize tr epoch n .read x r.1 r.2 := by
  intro r member used
  obtain ⟨⟨t, elp⟩, stored, rfl⟩ := List.mem_map.mp member
  have found := Std.ExtTreeMap.mem_toList_iff_getElem?_eq_some.mp stored
  obtain ⟨tid, entry⟩ := real.readers t elp found used
  simp only [tid]
  exact entry

theorem AccuLockReal.read (real : AccuLockReal unitSize tr epoch n x m)
    (looks : Looks forkJoinOrder unitSize tr epoch n x b .read curr inst currVc)
    (locks : ∀ a, a ∈ MultiLock.locksetOf b.own curr ↔ Held tr n curr a) :
    ∃ next out, AccuLock.processRead b curr x m inst = some (next, out) ∧
      AccuLockReal unitSize tr epoch (n + 1) x next ∧ ∀ call ∈ out, HybridCall unitSize tr n x call := by
  have ensured := real.ensureReader curr
  by_cases skips : (((AccuLock.ensureReader m curr).readerElpMap[curr]?.getD ({}, {})).1.equal currVc ||
      (AccuLock.ensureReader m curr).writerElp.1.equal currVc) = true
  · refine ⟨AccuLock.ensureReader m curr, [], ?_, ensured.later, fun _ made => nomatch made⟩
    simp only [AccuLock.processRead, looks.found, skips, Option.bind_eq_bind, Option.bind_some, if_true]
    rfl
  · obtain ⟨raced, calls, ran, sound⟩ := checkRecord_sound ensured.writer looks locks (Or.inl rfl)
    refine ⟨_, calls, by simp only [AccuLock.processRead, looks.found, skips, ran, Option.bind_eq_bind,
      Option.bind_some, Bool.false_eq_true, if_false]; rfl, ?_, sound⟩
    refine ⟨ensured.later.writer, fun t elp found used => ?_⟩
    simp only [getElem?_insert_thread] at found ⊢
    by_cases same : curr = t
    · subst same
      rw [if_pos rfl] at found ⊢
      cases found
      exact ⟨rfl, LockEntry.here looks locks⟩
    · rw [if_neg same] at found ⊢
      exact ensured.later.readers t elp found used

theorem AccuLockReal.write (real : AccuLockReal unitSize tr epoch n x m)
    (looks : Looks forkJoinOrder unitSize tr epoch n x b .write curr inst currVc)
    (locks : ∀ a, a ∈ MultiLock.locksetOf b.own curr ↔ Held tr n curr a) :
    ∃ next out, AccuLock.processWrite b curr x m inst = some (next, out) ∧
      AccuLockReal unitSize tr epoch (n + 1) x next ∧ ∀ call ∈ out, HybridCall unitSize tr n x call := by
  by_cases skips : m.writerElp.1.equal currVc = true
  · refine ⟨m, [], ?_, real.later, fun _ made => nomatch made⟩
    simp only [AccuLock.processWrite, looks.found, skips, Option.bind_eq_bind, Option.bind_some, if_true]
    rfl
  · obtain ⟨racedW, callsW, ranW, soundW⟩ := checkRecord_sound real.writer looks locks (Or.inl rfl)
    obtain ⟨racedR, callsR, ranR, soundR⟩ :=
      checkRecords_sound _ real.records looks locks (Or.inr rfl)
    refine ⟨_, callsW ++ callsR, by simp only [AccuLock.processWrite, looks.found, skips, ranW, ranR,
      Option.bind_eq_bind, Option.bind_some, Bool.false_eq_true, if_false]; rfl,
      ⟨fun _ => LockEntry.here looks locks, fun t elp found => by simp at found⟩, ?_⟩
    intro call made
    exact (List.mem_append.mp made).elim (soundW call) (soundR call)

theorem accuLock_tracks : accuLock.Tracks forkJoinOrder gateOpen Holds UnlocksFree where
  hooks := forkJoinOrder_hooks
  gate := gate_of_counted
  start holds := holds
  join {tr n b epoch curr child} here admitted sync holds := by
    obtain ⟨b', result, synced, settings, own⟩ := sync.join here admitted
      (forkJoinOrder_hooks.joinAcquires curr child) (forkJoinOrder_hooks.joinReleases curr child)
    refine ⟨b', result, synced, settings, ?_⟩
    rw [progressAt_succ here, own]
    exact holds
  lock {tr n b epoch curr addr} here admitted sync holds := by
    refine ⟨_, rfl, forkJoin_lock sync here admitted _, ⟨rfl, rfl, rfl⟩, ?_⟩
    rw [progressAt_succ here]
    exact holds.lock admitted.2
  unlock {tr n b epoch curr addr} frees here admitted sync holds := by
    have next := progressAt_succ here
    have synced := forkJoin_unlock sync here
      (b.own.insert curr ((MultiLock.locksetOf b.own curr).remove addr))
    have started : curr ∈ (progressAt tr (n + 1)).started := by
      rw [next, Progress.next, Progress.started_unlock]
      exact admitted.1.1
    obtain ⟨vc, found⟩ := synced.present started
    refine ⟨_, ?_, synced.tick started found, ⟨rfl, rfl, rfl⟩, ?_⟩
    · simp only at found
      simp [accuLock, AccuLock.processUnlock, found]
    · rw [next]
      exact holds.unlock admitted.2 (frees n curr addr here)

theorem accuLock_sound : accuLock.Analyses forkJoinOrder gateOpen Holds unitSize tr (fun _ _ => True)
    (AccuLockReal unitSize tr) (HybridCall unitSize tr) (fun _ _ _ => False) where
  blank _ _ := AccuLockReal.blank
  restamp same real := real.restamp same
  skip _ real := real.later
  process {n d epoch k curr inst addr size x} here member _ sync stamp runs holds _ real := by
    obtain ⟨currVc, looks⟩ := exists_looks here member sync stamp runs
    have locks := holds curr
    cases k with
    | read =>
      obtain ⟨m, out, ran, kept, sound⟩ := real.read looks locks
      exact ⟨m, out, ran, kept, sound, fun _ due => due.elim⟩
    | write =>
      obtain ⟨m, out, ran, kept, sound⟩ := real.write looks locks
      exact ⟨m, out, ran, kept, sound, fun _ due => due.elim⟩

theorem accuLock_blind : Blind (AccuLockReal unitSize tr) (fun _ _ _ => False) where
  skip real := real.later
  due _ _ _ := id

end
end Maple.Pintool
