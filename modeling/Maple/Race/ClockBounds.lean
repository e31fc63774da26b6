import Maple.Core.WordClock
import Maple.Race.Djit
import Maple.Race.Growth
import Maple.Race.Provenance

/-! The clocks of a detector count its hooks. A hook adds two to an entry at most, so no
`timestamp_t` wraps around in a run of fewer than `2 ^ 63` hooks. -/
namespace Maple

namespace VectorClock
variable {vc other : VectorClock} {m n : ℕ}

def Within (n : ℕ) (vc : VectorClock) : Prop := ∀ t, vc.getClock t ≤ n

theorem within_empty : ({} : VectorClock).Within n := fun t => by simp

theorem Within.mono (within : vc.Within n) (le : n ≤ m) : vc.Within m := fun t => (within t).trans le

theorem Within.join (within : vc.Within n) (also : other.Within n) : (vc.join other).Within n := by
  intro t
  rw [getClock_join]
  exact max_le (within t) (also t)

theorem Within.increment (within : vc.Within n) (t : ThreadId) : (vc.increment t).Within (n + 1) := by
  intro u
  rw [getClock_increment]
  split
  · exact Nat.succ_le_succ (within t)
  · exact Nat.le_succ_of_le (within u)

theorem Within.foldl_join {entries : List (ThreadId × VectorClock)} (within : vc.Within n)
    (each : ∀ entry ∈ entries, entry.2.Within n) :
    (entries.foldl (fun vc entry => vc.join entry.2) vc).Within n := by
  induction entries generalizing vc with
  | nil => exact within
  | cons entry rest ih =>
    obtain ⟨first, others⟩ := List.forall_mem_cons.mp each
    exact ih (within.join first) others

end VectorClock

namespace Race

theorem of_getElem?_insert {K V : Type} [Ord K] [Std.TransOrd K] {table : OrdMap K V} {j k : K} {v w : V}
    (found : (table.insert j v)[k]? = some w) : w = v ∨ table[k]? = some w := by
  rw [Std.ExtTreeMap.getElem?_insert] at found
  split at found
  · exact Or.inl (Option.some.inj found).symm
  · exact Or.inr found

namespace DetectorBase
variable {G : Type} {b b' : DetectorBase G} {curr : ThreadId} {addr : Address} {vc : VectorClock} {m n : ℕ}

/-- No entry of a clock that the detector stores is above `n`. -/
structure ClocksWithin (n : ℕ) (b : DetectorBase G) : Prop where
  threads : ∀ {t : ThreadId} {vc}, b.currVcMap[t]? = some vc → vc.Within n
  mutexes : ∀ {x : Address} {m}, b.mutexMetaTable[x]? = some m → m.vc.Within n
  conds : ∀ {x : Address} {m} {t : ThreadId} {vc}, b.condMetaTable[x]? = some m →
    m.waitTable[t]? = some vc ∨ m.signalTable[t]? = some vc → vc.Within n
  barriers : ∀ {x : Address} {m} {t : ThreadId} {vc}, b.barrierMetaTable[x]? = some m → m.Stores t vc → vc.Within n

namespace ClocksWithin

theorem mono (within : b.ClocksWithin n) (le : n ≤ m) : b.ClocksWithin m where
  threads found := (within.threads found).mono le
  mutexes found := (within.mutexes found).mono le
  conds found stored := (within.conds found stored).mono le
  barriers found stored := (within.barriers found stored).mono le

theorem of_eq (within : b.ClocksWithin n) (threads : b'.currVcMap = b.currVcMap)
    (mutexes : b'.mutexMetaTable = b.mutexMetaTable) (conds : b'.condMetaTable = b.condMetaTable)
    (barriers : b'.barrierMetaTable = b.barrierMetaTable) : b'.ClocksWithin n where
  threads found := within.threads (threads ▸ found)
  mutexes found := within.mutexes (mutexes ▸ found)
  conds found := within.conds (conds ▸ found)
  barriers found := within.barriers (barriers ▸ found)

theorem mutexAt (within : b.ClocksWithin n) (x : Address) : (b.mutexMetaTable[x]?.getD {}).vc.Within n := by
  cases found : b.mutexMetaTable[x]? with
  | none => exact VectorClock.within_empty
  | some m => exact within.mutexes found

theorem condAt (within : b.ClocksWithin n) (x : Address) {t : ThreadId}
    (stored : (b.condMetaTable[x]?.getD {}).waitTable[t]? = some vc ∨
      (b.condMetaTable[x]?.getD {}).signalTable[t]? = some vc) : vc.Within n := by
  cases found : b.condMetaTable[x]? with
  | none => simp [found] at stored
  | some m =>
    rw [found] at stored
    exact within.conds found stored

theorem barrierAt (within : b.ClocksWithin n) (x : Address) {t : ThreadId}
    (stored : (b.barrierMetaTable[x]?.getD {}).Stores t vc) : vc.Within n := by
  cases found : b.barrierMetaTable[x]? with
  | none => simp [found, BarrierMeta.Stores] at stored
  | some m =>
    rw [found] at stored
    exact within.barriers found stored

theorem setVc (within : b.ClocksWithin n) (curr : ThreadId) (new : vc.Within n) : (b.setVc curr vc).ClocksWithin n :=
  { within with threads := fun found => (of_getElem?_insert found).elim (fun same => same ▸ new) within.threads }

theorem setMutex (within : b.ClocksWithin n) (new : vc.Within n) :
    { b with mutexMetaTable := b.mutexMetaTable.insert addr ⟨vc⟩ }.ClocksWithin n :=
  { within with mutexes := fun found => (of_getElem?_insert found).elim (fun same => same ▸ new) within.mutexes }

theorem ensureMutex (within : b.ClocksWithin n) (addr : Address) :
    { b with mutexMetaTable := ensureMeta {} b.mutexMetaTable addr }.ClocksWithin n := by
  unfold ensureMeta
  split
  · exact within
  · exact within.setMutex VectorClock.within_empty

theorem setCond (within : b.ClocksWithin n) {c : CondMeta} (new : ∀ {t : ThreadId} {vc},
    c.waitTable[t]? = some vc ∨ c.signalTable[t]? = some vc → vc.Within n) :
    { b with condMetaTable := b.condMetaTable.insert addr c }.ClocksWithin n := by
  refine { within with conds := fun found stored => ?_ }
  rcases of_getElem?_insert found with rfl | before
  · exact new stored
  · exact within.conds before stored

theorem setBarrier (within : b.ClocksWithin n) {c : BarrierMeta}
    (new : ∀ {t : ThreadId} {vc}, c.Stores t vc → vc.Within n) :
    { b with barrierMetaTable := b.barrierMetaTable.insert addr c }.ClocksWithin n := by
  refine { within with barriers := fun found stored => ?_ }
  rcases of_getElem?_insert found with rfl | before
  · exact new stored
  · exact within.barriers before stored

theorem threadStart (within : b.ClocksWithin n) {parent : ThreadId} (result : b.threadStart curr parent = some b') :
    b'.ClocksWithin (n + 1) := by
  have own : (({} : VectorClock).increment curr).Within (n + 1) :=
    (VectorClock.within_empty.increment curr).mono (Nat.le_add_left 1 n)
  have later := within.mono (Nat.le_succ n)
  unfold DetectorBase.threadStart at result
  dsimp only at result
  split at result
  · obtain ⟨parentVc, found, same⟩ := Option.bind_eq_some_iff.mp result
    cases same
    have ticked := later.setVc parent ((within.threads found).increment parent)
    exact (ticked.setVc _ (own.join (later.threads found))).of_eq rfl rfl rfl rfl
  · cases result
    exact (later.setVc _ own).of_eq rfl rfl rfl rfl

theorem afterPthreadJoin (within : b.ClocksWithin n) {child : ThreadId}
    (result : b.afterPthreadJoin curr child = some b') : b'.ClocksWithin n := by
  simp only [DetectorBase.afterPthreadJoin, Option.bind_eq_bind, Option.bind_eq_some_iff, Option.pure_def,
    Option.some.injEq] at result
  obtain ⟨currVc, found, childVc, foundChild, rfl⟩ := result
  exact (within.setVc _ ((within.threads found).join (within.threads foundChild))).of_eq rfl rfl rfl rfl

theorem processLock (within : b.ClocksWithin n) (result : b.processLock curr addr = some b') :
    b'.ClocksWithin n := by
  simp only [DetectorBase.processLock, Option.bind_eq_bind, Option.bind_eq_some_iff, Option.pure_def,
    Option.some.injEq] at result
  obtain ⟨currVc, found, rfl⟩ := result
  exact within.setVc _ ((within.threads found).join (within.mutexAt addr))

/-- The clock of a thread ticks, and nothing else changes. -/
theorem tick (within : b.ClocksWithin n) {currVc : VectorClock} (found : b.currVcMap[curr]? = some currVc) :
    (b.setVc curr (currVc.increment curr)).ClocksWithin (n + 1) :=
  (within.mono (Nat.le_succ n)).setVc curr ((within.threads found).increment curr)

theorem processUnlock (within : b.ClocksWithin n) (result : b.processUnlock curr addr = some b') :
    b'.ClocksWithin (n + 1) := by
  simp only [DetectorBase.processUnlock, Option.bind_eq_bind, Option.bind_eq_some_iff, Option.pure_def,
    Option.some.injEq] at result
  obtain ⟨currVc, found, rfl⟩ := result
  exact (within.tick found).setMutex ((within.threads found).mono (Nat.le_succ n))

theorem processNotify (within : b.ClocksWithin n) (result : b.processNotify curr addr = some b') :
    b'.ClocksWithin (n + 1) := by
  simp only [DetectorBase.processNotify, Option.bind_eq_bind, Option.bind_eq_some_iff, Option.pure_def,
    Option.some.injEq] at result
  obtain ⟨currVc, found, rfl⟩ := result
  have joined := (within.threads found).foldl_join fun entry member =>
    within.condAt addr (Or.inl (Std.ExtTreeMap.mem_toList_iff_getElem?_eq_some.mp member))
  have ticked := (within.mono (Nat.le_succ n)).setVc curr (joined.increment curr)
  refine ticked.setCond fun stored => VectorClock.Within.mono ?_ (Nat.le_succ n)
  rcases stored with waiting | signalled
  · exact within.condAt addr (Or.inl waiting)
  · rcases of_foldl_insert signalled with rfl | before
    · exact joined
    · exact within.condAt addr (Or.inr before)

theorem processPreWait (within : b.ClocksWithin n) (result : b.processPreWait curr addr = some b') :
    b'.ClocksWithin (n + 1) := by
  simp only [DetectorBase.processPreWait, Option.bind_eq_bind, Option.bind_eq_some_iff, Option.pure_def,
    Option.some.injEq] at result
  obtain ⟨currVc, found, rfl⟩ := result
  refine (within.tick found).setCond fun stored => VectorClock.Within.mono ?_ (Nat.le_succ n)
  rcases stored with waiting | signalled
  · rcases of_getElem?_insert waiting with rfl | before
    · exact within.threads found
    · exact within.condAt addr (Or.inl before)
  · exact within.condAt addr (Or.inr signalled)

theorem processPostWait (within : b.ClocksWithin n) (result : b.processPostWait curr addr = some b') :
    b'.ClocksWithin n := by
  simp only [DetectorBase.processPostWait, Option.bind_eq_bind, Option.bind_eq_some_iff, Option.pure_def] at result
  obtain ⟨currVc, found, _, _, result⟩ := result
  split at result
  · cases result
    exact within.setCond fun stored => within.condAt addr (stored.imp_left of_getElem?_erase)
  · next vc signalled =>
    cases result
    have joined := (within.threads found).join (within.condAt addr (Or.inr signalled))
    exact (within.setVc curr joined).setCond fun stored =>
      within.condAt addr (stored.imp of_getElem?_erase of_getElem?_erase)

theorem processPreBarrier (within : b.ClocksWithin n) (result : b.processPreBarrier curr addr = some b') :
    b'.ClocksWithin n := by
  simp only [DetectorBase.processPreBarrier, Option.bind_eq_bind, Option.bind_eq_some_iff, Option.pure_def,
    Option.some.injEq] at result
  obtain ⟨currVc, found, rfl⟩ := result
  refine within.setBarrier fun stored => ?_
  rcases stored.of_processPre with rfl | before
  · exact within.threads found
  · exact within.barrierAt addr before

/-- The loop of `ProcessPostBarrier` joins stored clocks and keeps them. -/
theorem scan {entries : List (ThreadId × (VectorClock × Bool))} (each : ∀ entry ∈ entries, entry.2.1.Within n)
    {scan last : BarrierMeta.Scan} (ran : entries.foldlM (BarrierMeta.scanEntry curr) scan = some last)
    (own : scan.currVc.Within n) (stored : ∀ (t : ThreadId) entry, scan.table[t]? = some entry → entry.1.Within n) :
    last.currVc.Within n ∧ ∀ (t : ThreadId) entry, last.table[t]? = some entry → entry.1.Within n := by
  induction entries generalizing scan with
  | nil =>
    cases ran
    exact ⟨own, stored⟩
  | cons entry rest ih =>
    simp only [List.foldlM_cons, Option.bind_eq_bind, Option.bind_eq_some_iff] at ran
    obtain ⟨next, entered, ran⟩ := ran
    obtain ⟨first, others⟩ := List.forall_mem_cons.mp each
    have joined := own.join first
    simp only [BarrierMeta.scanEntry, Option.bind_eq_bind, Option.pure_def] at entered
    split at entered
    · obtain ⟨_, _, same⟩ := Option.bind_eq_some_iff.mp entered
      cases same
      refine ih others ran joined fun t entry' found => ?_
      rcases of_getElem?_insert found with rfl | before
      · exact first
      · exact stored t entry' before
    · cases entered
      exact ih others ran joined stored

theorem processPostBarrier (within : b.ClocksWithin n) (result : b.processPostBarrier curr addr = some b') :
    b'.ClocksWithin (n + 1) := by
  simp only [DetectorBase.processPostBarrier, BarrierMeta.processPost, Option.bind_eq_bind,
    Option.bind_eq_some_iff, Option.pure_def, Option.some.injEq] at result
  obtain ⟨currVc, found, ⟨left, vc⟩, ⟨last, ran, same⟩, rfl⟩ := result
  cases same
  have posted (t : ThreadId) (entry : VectorClock × Bool)
      (stored : (b.barrierMetaTable[addr]?.getD {}).postTable[t]? = some entry) : entry.1.Within n :=
    within.barrierAt addr (BarrierMeta.stores_of_postTable stored)
  obtain ⟨joined, tables⟩ := scan (fun entry member =>
    posted entry.1 entry.2 (Std.ExtTreeMap.mem_toList_iff_getElem?_eq_some.mp member)) ran (within.threads found) posted
  have ticked := (within.mono (Nat.le_succ n)).setVc curr (joined.increment curr)
  refine ticked.setBarrier fun stored => VectorClock.Within.mono ?_ (Nat.le_succ n)
  rcases stored.of_settle with ⟨flag, kept⟩ | before
  · exact tables _ _ kept
  · exact within.barrierAt addr before

theorem allocAddrRegion (within : b.ClocksWithin n) {size : Address}
    (result : b.allocAddrRegion addr size = some b') : b'.ClocksWithin n := by
  simp only [DetectorBase.allocAddrRegion, Option.bind_eq_bind, Option.bind_eq_some_iff, Option.pure_def,
    Option.some.injEq] at result
  obtain ⟨_, _, rfl⟩ := result
  exact within.of_eq rfl rfl rfl rfl

theorem allocSection (within : b.ClocksWithin n) {start size : Address}
    (result : b.allocSection start size = some b') : b'.ClocksWithin n := by
  unfold DetectorBase.allocSection at result
  split at result
  · exact within.allocAddrRegion result
  · cases result
    exact within

end ClocksWithin
end DetectorBase
open DetectorBase

section Runs
variable {G M : Type} {alg : Algorithm G M} {b b' : DetectorBase G} {d next : Detector G M} {n : ℕ} {e : Hook}
  {out : List DbCall}

/-- The virtual functions of a detector class tick at most once. -/
structure Algorithm.Ticks (alg : Algorithm G M) : Prop where
  lock : ∀ {b curr addr b' n}, alg.processLock b curr addr = some b' → b.ClocksWithin n → b'.ClocksWithin n
  unlock : ∀ {b curr addr b' n}, alg.processUnlock b curr addr = some b' → b.ClocksWithin n → b'.ClocksWithin (n + 1)
  join : ∀ {b curr child b' n}, alg.afterPthreadJoin b curr child = some b' → b.ClocksWithin n →
    b'.ClocksWithin (n + 1)

theorem Algorithm.Ticks.base (lock : alg.processLock = DetectorBase.processLock)
    (unlock : alg.processUnlock = DetectorBase.processUnlock)
    (join : alg.afterPthreadJoin = DetectorBase.afterPthreadJoin) : alg.Ticks where
  lock result within := within.processLock (lock ▸ result)
  unlock result within := within.processUnlock (unlock ▸ result)
  join result within := (within.afterPthreadJoin (join ▸ result)).mono (Nat.le_succ _)

/-- `BeforePthreadCondWait` ticks twice. -/
theorem Algorithm.Ticks.onHook (ticks : alg.Ticks) (within : b.ClocksWithin n) (result : b.onHook alg e = some b') :
    b'.ClocksWithin (n + 2) := by
  have still {c : DetectorBase G} (within : c.ClocksWithin n) : c.ClocksWithin (n + 2) :=
    within.mono (Nat.le_add_right n 2)
  have once {c : DetectorBase G} (within : c.ClocksWithin (n + 1)) : c.ClocksWithin (n + 2) :=
    within.mono (Nat.le_succ _)
  cases e with
  | imageLoad =>
    simp only [DetectorBase.onHook, imageLoad, Option.bind_eq_bind, Option.bind_eq_some_iff] at result
    obtain ⟨_, _, withData, loaded, result⟩ := result
    exact still ((within.allocSection loaded).allocSection result)
  | threadStart => exact once (within.threadStart result)
  | afterPthreadJoin => exact once (ticks.join result within)
  | afterPthreadMutexLock curr addr =>
    obtain ⟨_, _, result⟩ := Option.bind_eq_some_iff.mp result
    exact still (ticks.lock result (within.ensureMutex addr))
  | beforePthreadMutexUnlock curr addr =>
    obtain ⟨_, _, result⟩ := Option.bind_eq_some_iff.mp result
    exact once (ticks.unlock result (within.ensureMutex addr))
  | beforePthreadCondSignal | beforePthreadCondBroadcast =>
    obtain ⟨_, _, result⟩ := Option.bind_eq_some_iff.mp result
    exact once (within.processNotify result)
  | beforePthreadCondWait _ _ mutexAddr | beforePthreadCondTimedwait _ _ mutexAddr =>
    simp only [DetectorBase.onHook, beforePthreadCondWait, Option.bind_eq_bind, Option.bind_eq_some_iff] at result
    obtain ⟨_, _, _, _, released, unlocked, result⟩ := result
    exact (ticks.unlock unlocked (within.ensureMutex mutexAddr)).processPreWait result
  | afterPthreadCondWait _ _ mutexAddr | afterPthreadCondTimedwait _ _ mutexAddr =>
    simp only [DetectorBase.onHook, afterPthreadCondWait, Option.bind_eq_bind, Option.bind_eq_some_iff] at result
    obtain ⟨_, _, _, _, woken, waited, result⟩ := result
    exact still (ticks.lock result ((within.processPostWait waited).ensureMutex mutexAddr))
  | beforePthreadBarrierWait =>
    obtain ⟨_, _, result⟩ := Option.bind_eq_some_iff.mp result
    exact still (within.processPreBarrier result)
  | afterPthreadBarrierWait =>
    obtain ⟨_, _, result⟩ := Option.bind_eq_some_iff.mp result
    exact once (within.processPostBarrier result)
  | afterMalloc | afterValloc | afterRealloc | afterCalloc => exact still (within.allocAddrRegion result)
  | _ =>
    cases result
    exact still (within.of_eq rfl rfl rfl rfl)

/-- What `FreeAddrRegion` leaves in a table was there before. -/
theorem of_freeLoop {V : Type} {processFree : V → List DbCall} {units : List Address} {table : OrdMap Address V}
    {x : Address} {v : V} (found : (freeLoop processFree units table).1[x]? = some v) : table[x]? = some v := by
  rw [(freeLoop_spec processFree units table).1] at found
  split at found
  · cases found
  · exact found

theorem ClocksWithin.freeAddrRegion (within : d.ClocksWithin n) (addr : Address) :
    (d.freeAddrRegion alg addr).1.ClocksWithin n := by
  unfold Detector.freeAddrRegion
  split
  · exact within
  · exact ⟨within.threads, fun found => within.mutexes (of_freeLoop found),
      fun found => within.conds (of_freeLoop found),
      fun found => within.barriers (of_freeLoop found)⟩

/-- A hook adds two to an entry at most. -/
theorem Algorithm.Ticks.step (ticks : alg.Ticks) (within : d.ClocksWithin n)
    (stepped : d.step alg e = some (next, out)) :
    next.ClocksWithin (n + 2) := by
  have still {c : DetectorBase G} (within : c.ClocksWithin n) : c.ClocksWithin (n + 2) :=
    within.mono (Nat.le_add_right n 2)
  have accessed {process curr inst addr size} (ran : d.beforeMem alg process curr inst addr size = some (next, out)) :
      next.ClocksWithin (n + 2) := by
    unfold Detector.beforeMem at ran
    split at ran
    · obtain ⟨_, _, same⟩ := Option.bind_eq_some_iff.mp ran
      cases same
      exact still within
    · cases ran
      exact still within
  have silent (ran : d.silent (d.toDetectorBase.onHook alg e) = some (next, out)) : next.ClocksWithin (n + 2) := by
    obtain ⟨b, result, same⟩ := Option.map_eq_some_iff.mp ran
    cases same
    exact ticks.onHook within result
  cases e with
  | beforeMemRead => exact accessed stepped
  | beforeMemWrite => exact accessed stepped
  | beforeRealloc addr | beforeFree addr =>
    have freed : (d.freeAddrRegion alg addr).1 = next := congrArg Prod.fst (Option.some.inj stepped)
    exact freed ▸ still (ClocksWithin.freeAddrRegion within addr)
  | imageUnload lowAddr dataStart bssStart =>
    obtain ⟨_, _, same⟩ := Option.bind_eq_some_iff.mp stepped
    cases same
    exact still (ClocksWithin.freeAddrRegion (ClocksWithin.freeAddrRegion within dataStart) bssStart)
  | _ => exact silent stepped

/-- In a run of `n` hooks no entry of a stored clock exceeds `2 * n`. -/
theorem clocks_bounded (ticks : alg.Ticks) (fresh : d.ClocksWithin 0) {tr : List Hook} {outs : List (List DbCall)}
    (ran : d.run alg tr = some (next, outs)) : next.ClocksWithin (2 * tr.length) := by
  have later : ∀ n, d.ClocksWithin n → next.ClocksWithin (n + 2 * tr.length) := by
    clear fresh
    induction tr generalizing d outs with
    | nil =>
      cases ran
      exact fun n within => within
    | cons e rest ih =>
      intro n within
      obtain ⟨middle, out, tail, stepped, ranRest, rfl⟩ := Runs.run_cons_inv ran
      have bounded := ih ranRest _ (ticks.step within stepped)
      rw [List.length_cons]
      exact bounded.mono (by omega)
  simpa using later 0 fresh

/-- So the clocks of threads fit into words, and incrementing the words does not wrap. -/
theorem increment_exact (ticks : alg.Ticks) (fresh : d.ClocksWithin 0) {tr : List Hook} {outs : List (List DbCall)}
    (ran : d.run alg tr = some (next, outs)) (short : tr.length < 2 ^ 63) {t : ThreadId} {vc : VectorClock}
    (found : next.currVcMap[t]? = some vc) :
    ∃ word : WordClock, word.toVectorClock = vc ∧ (word.increment t).toVectorClock = vc.increment t := by
  have bound (u : ThreadId) : vc.getClock u < WordClock.lastTimestamp := by
    have within := (clocks_bounded ticks fresh ran).threads found u
    unfold WordClock.lastTimestamp
    omega
  have fits (u : ThreadId) : vc.getClock u < 2 ^ 64 := (bound u).trans_le (Nat.sub_le _ _)
  exact ⟨⟨vc, fits⟩, rfl, WordClock.increment_eq (bound t).ne⟩

/-- The state before the first hook. -/
theorem clocksWithin_fresh (b : DetectorBase G) (threads : b.currVcMap = ∅) (mutexes : b.mutexMetaTable = ∅)
    (conds : b.condMetaTable = ∅) (barriers : b.barrierMetaTable = ∅) : b.ClocksWithin 0 :=
  ⟨by simp [threads], by simp [mutexes], by simp [conds], by simp [barriers]⟩

end Runs

theorem djit_ticks : djit.Ticks := .base rfl rfl rfl

end Race
end Maple
