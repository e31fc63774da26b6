import Maple.Idiom.PredictorCond
import Maple.Race.Detector

/-! Clocks and lock sets of `idiom/predictor_new.cc`. Its barriers are those of
`race/detector.cc`. -/
namespace Maple.Idiom

/-- The locks that a thread holds and the versions that it acquired. -/
abbrev LockSet := OrdMap Address ℕ

/-- Whether the lock is held in this version. -/
def LockSet.exist (ls : LockSet) (addr : Address) (version : ℕ) : Bool := ls[addr]? = some version

structure SyncState where
  currVcMap : OrdMap ThreadId VectorClock := ∅
  currLsMap : OrdMap ThreadId LockSet := ∅
  currLockVersion : ℕ := 0
  condMetaTable : OrdMap Address CondMeta := ∅
  barrierMetaTable : OrdMap Address Race.BarrierMeta := ∅

inductive SyncEvent where
  | threadStart (curr parent : ThreadId)
  | afterPthreadJoin (curr child : ThreadId)
  | signal (curr : ThreadId) (addr : Address)
  | broadcast (curr : ThreadId) (addr : Address)
  | preWait (curr : ThreadId) (addr : Address) (timedwait : Bool)
  | postWait (curr : ThreadId) (addr : Address)
  | preBarrier (curr : ThreadId) (addr : Address)
  | postBarrier (curr : ThreadId) (addr : Address)
  | addLock (curr : ThreadId) (addr : Address)
  | removeLock (curr : ThreadId) (addr : Address)

namespace SyncState

def threadStart (s : SyncState) (curr parent : ThreadId) : Option SyncState := do
  let currVc := ({} : VectorClock).increment curr
  if parent = invalidThdId then
    return { s with
      currVcMap := s.currVcMap.insert curr currVc
      currLsMap := s.currLsMap.insert curr ∅ }
  else
    let parentVc ← s.currVcMap[parent]?
    return { s with
      currVcMap := (s.currVcMap.insert parent (parentVc.increment parent)).insert curr (currVc.join parentVc)
      currLsMap := s.currLsMap.insert curr ∅ }

def afterPthreadJoin (s : SyncState) (curr child : ThreadId) : Option SyncState := do
  let currVc ← s.currVcMap[curr]?
  let childVc ← s.currVcMap[child]?
  return { s with currVcMap := s.currVcMap.insert curr (currVc.join childVc) }

/-- A call on the condition variable at `addr`, which `GetCondMeta` makes if it is missing. -/
def onCond (s : SyncState) (addr : Address) (call : CondState → Option CondState) : Option SyncState := do
  let c ← call { currVcMap := s.currVcMap, cond := s.condMetaTable[addr]?.getD {} }
  return { s with currVcMap := c.currVcMap, condMetaTable := s.condMetaTable.insert addr c.cond }

def processPreBarrier (s : SyncState) (curr : ThreadId) (addr : Address) : Option SyncState := do
  let currVc ← s.currVcMap[curr]?
  let barrierMeta := s.barrierMetaTable[addr]?.getD {}
  return { s with barrierMetaTable := s.barrierMetaTable.insert addr (barrierMeta.processPre curr currVc) }

def processPostBarrier (s : SyncState) (curr : ThreadId) (addr : Address) : Option SyncState := do
  let currVc ← s.currVcMap[curr]?
  let barrierMeta := s.barrierMetaTable[addr]?.getD {}
  let (left, vc) ← barrierMeta.processPost curr currVc
  return { s with
    currVcMap := s.currVcMap.insert curr vc
    barrierMetaTable := s.barrierMetaTable.insert addr left }

/-- `Add` gives the lock a new version. -/
def addLock (s : SyncState) (curr : ThreadId) (addr : Address) : Option SyncState := do
  let currLs ← s.currLsMap[curr]?
  return { s with
    currLsMap := s.currLsMap.insert curr (currLs.insert addr (s.currLockVersion + 1))
    currLockVersion := s.currLockVersion + 1 }

def removeLock (s : SyncState) (curr : ThreadId) (addr : Address) : Option SyncState := do
  let currLs ← s.currLsMap[curr]?
  return { s with currLsMap := s.currLsMap.insert curr (currLs.erase addr) }

def step (s : SyncState) : SyncEvent → Option SyncState
  | .threadStart curr parent => s.threadStart curr parent
  | .afterPthreadJoin curr child => s.afterPthreadJoin curr child
  | .signal curr addr => s.onCond addr (·.processSignal curr)
  | .broadcast curr addr => s.onCond addr (·.processBroadcast curr)
  | .preWait curr addr timedwait => s.onCond addr fun c => some (c.processPreWait curr timedwait)
  | .postWait curr addr => s.onCond addr (·.processPostWait curr)
  | .preBarrier curr addr => s.processPreBarrier curr addr
  | .postBarrier curr addr => s.processPostBarrier curr addr
  | .addLock curr addr => s.addLock curr addr
  | .removeLock curr addr => s.removeLock curr addr

/-- A thread starts once. -/
def Allows (s : SyncState) : SyncEvent → Prop
  | .threadStart curr _ => curr ∉ s.currVcMap
  | _ => True

instance (s : SyncState) (e : SyncEvent) : Decidable (s.Allows e) := by
  unfold Allows
  split <;> infer_instance

end SyncState

/-- No thread's clock goes back. -/
def Ages (old new : OrdMap ThreadId VectorClock) : Prop :=
  ∀ (t : ThreadId) (vc : VectorClock), old[t]? = some vc → ∃ vc', new[t]? = some vc' ∧ vc.happensBefore vc' = true

theorem Ages.refl (map : OrdMap ThreadId VectorClock) : Ages map map := fun _ vc found =>
  ⟨vc, found, vc.happensBefore_refl⟩

theorem Ages.trans {a b c : OrdMap ThreadId VectorClock} (first : Ages a b) (second : Ages b c) : Ages a c := by
  intro t vc found
  obtain ⟨vc', found, before⟩ := first t vc found
  obtain ⟨vc'', found, before'⟩ := second t vc' found
  exact ⟨vc'', found, VectorClock.happensBefore_trans before before'⟩

theorem Ages.insert {map : OrdMap ThreadId VectorClock} {t : ThreadId} {vc vc' : VectorClock}
    (found : map[t]? = some vc) (before : vc.happensBefore vc' = true) : Ages map (map.insert t vc') := by
  intro u old stored
  by_cases same : t = u
  · subst same
    cases found.symm.trans stored
    exact ⟨vc', by simp, before⟩
  · exact ⟨old, by simp [same, stored], old.happensBefore_refl⟩

theorem Ages.insert_new {map : OrdMap ThreadId VectorClock} {t : ThreadId} (fresh : t ∉ map) (vc : VectorClock) :
    Ages map (map.insert t vc) := by
  intro u old stored
  have other : t ≠ u := by
    rintro rfl
    exact nomatch (Std.ExtTreeMap.getElem?_eq_none fresh).symm.trans stored
  exact ⟨old, by simp [other, stored], old.happensBefore_refl⟩

namespace CondState
variable {s next : CondState} {t : ThreadId}

theorem ages_processSignal (ran : s.processSignal t = some next) : Ages s.currVcMap next.currVcMap := by
  obtain ⟨vc, found, same⟩ := Option.bind_eq_some_iff.mp ran
  cases same
  exact .insert found (vc.happensBefore_increment t)

theorem ages_processBroadcast (ran : s.processBroadcast t = some next) : Ages s.currVcMap next.currVcMap := by
  obtain ⟨vc, found, same⟩ := Option.bind_eq_some_iff.mp ran
  cases same
  exact .insert found (vc.happensBefore_increment t)

theorem ages_processPostWait (ran : s.processPostWait t = some next) : Ages s.currVcMap next.currVcMap := by
  obtain ⟨vc, found, ran⟩ := Option.bind_eq_some_iff.mp ran
  dsimp only at ran
  split at ran
  · split at ran
    · cases ran
      exact .insert found (vc.happensBefore_join _)
    · obtain ⟨_, _, same⟩ := Option.bind_eq_some_iff.mp ran
      cases same
      exact .insert found vc.happensBefore_refl
  · obtain ⟨signalVc, _, same⟩ := Option.bind_eq_some_iff.mp ran
    cases same
    exact .insert found (vc.happensBefore_join signalVc)

end CondState

namespace SyncState
variable {s next : SyncState} {curr : ThreadId} {addr : Address}

theorem ages_onCond {call : CondState → Option CondState}
    (calls : ∀ c c', call c = some c' → Ages c.currVcMap c'.currVcMap) (ran : s.onCond addr call = some next) :
    Ages s.currVcMap next.currVcMap := by
  obtain ⟨c, called, same⟩ := Option.bind_eq_some_iff.mp ran
  cases same
  exact calls _ _ called

/-- The clock that the loop of `ProcessPostBarrier` joins. -/
theorem happensBefore_scan {entries : List (ThreadId × (VectorClock × Bool))} {scan last : Race.BarrierMeta.Scan}
    (ran : entries.foldlM (Race.BarrierMeta.scanEntry curr) scan = some last) :
    scan.currVc.happensBefore last.currVc = true := by
  induction entries generalizing scan with
  | nil =>
    cases ran
    exact VectorClock.happensBefore_refl _
  | cons entry entries ih =>
    obtain ⟨middle, entered, ran⟩ := Option.bind_eq_some_iff.mp ran
    have joined : middle.currVc = scan.currVc.join entry.2.1 := by
      simp only [Race.BarrierMeta.scanEntry] at entered
      split at entered
      · obtain ⟨_, _, same⟩ := Option.bind_eq_some_iff.mp entered
        cases same
        rfl
      · cases entered
        rfl
    apply VectorClock.happensBefore_trans _ (ih ran)
    rw [joined]
    exact scan.currVc.happensBefore_join _

theorem ages_processPostBarrier (ran : s.processPostBarrier curr addr = some next) :
    Ages s.currVcMap next.currVcMap := by
  obtain ⟨vc, found, ran⟩ := Option.bind_eq_some_iff.mp ran
  obtain ⟨⟨left, vc'⟩, processed, same⟩ := Option.bind_eq_some_iff.mp ran
  cases same
  obtain ⟨scan, scanned, same⟩ := Option.bind_eq_some_iff.mp processed
  cases same
  exact .insert found (VectorClock.happensBefore_trans (happensBefore_scan scanned)
    (scan.currVc.happensBefore_increment curr))

/-- Whatever the threads do, their clocks only grow. -/
theorem ages_step {e : SyncEvent} (allowed : s.Allows e) (ran : s.step e = some next) :
    Ages s.currVcMap next.currVcMap := by
  match e with
  | .threadStart curr parent =>
    have fresh : curr ∉ s.currVcMap := allowed
    simp only [step, threadStart] at ran
    split at ran
    · cases ran
      exact .insert_new fresh _
    · obtain ⟨parentVc, found, same⟩ := Option.bind_eq_some_iff.mp ran
      cases same
      apply Ages.trans (.insert found (parentVc.happensBefore_increment parent))
      apply Ages.insert_new
      have other : parent ≠ curr := by
        rintro rfl
        exact nomatch (Std.ExtTreeMap.getElem?_eq_none fresh).symm.trans found
      simpa [Std.ExtTreeMap.mem_insert, other] using fresh
  | .afterPthreadJoin curr child =>
    obtain ⟨vc, found, ran⟩ := Option.bind_eq_some_iff.mp ran
    obtain ⟨childVc, _, same⟩ := Option.bind_eq_some_iff.mp ran
    cases same
    exact .insert found (vc.happensBefore_join childVc)
  | .signal curr addr => exact ages_onCond (fun _ _ => CondState.ages_processSignal) ran
  | .broadcast curr addr => exact ages_onCond (fun _ _ => CondState.ages_processBroadcast) ran
  | .preWait curr addr timedwait =>
    have kept : ∀ c c' : CondState, some (c.processPreWait curr timedwait) = some c' → Ages c.currVcMap c'.currVcMap := by
      intro c c' called
      cases called
      exact .refl _
    exact ages_onCond kept ran
  | .postWait curr addr => exact ages_onCond (fun _ _ => CondState.ages_processPostWait) ran
  | .preBarrier curr addr =>
    obtain ⟨vc, found, same⟩ := Option.bind_eq_some_iff.mp ran
    cases same
    exact .refl _
  | .postBarrier curr addr => exact ages_processPostBarrier ran
  | .addLock curr addr | .removeLock curr addr =>
    obtain ⟨ls, found, same⟩ := Option.bind_eq_some_iff.mp ran
    cases same
    exact .refl _

end SyncState
end Maple.Idiom
