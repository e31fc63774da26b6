import Maple.Race.SyncOrder

/-! What every hook keeps, whatever the trace: clocks only grow, no thread loses
its clock, and the thread counters change at starts and joins alone. -/
namespace Maple.Race

namespace DetectorBase
variable {G : Type}

/-- No clock goes back. -/
structure Ages (b b' : DetectorBase G) : Prop where
  clock : ∀ t u, b.clockOf (.thread t) u ≤ b'.clockOf (.thread t) u
  present : ∀ {t : ThreadId} {vc}, b.currVcMap[t]? = some vc → ∃ vc', b'.currVcMap[t]? = some vc'

/-- What a hook does that starts and joins no thread. -/
structure Grows (b b' : DetectorBase G) : Prop extends b.Ages b' where
  starts : b'.threadStartC = b.threadStartC
  joins : b'.threadJoinC = b.threadJoinC

/-- Such a hook touches the clock of its own thread only. -/
structure GrowsBy (b : DetectorBase G) (curr : ThreadId) (b' : DetectorBase G) : Prop
    extends b.Grows b' where
  frame : ∀ {t : ThreadId}, t ≠ curr → b'.currVcMap[t]? = b.currVcMap[t]?

variable {b b' b'' : DetectorBase G} {curr : ThreadId} {addr : Address}

theorem Ages.trans (first : b.Ages b') (second : b'.Ages b'') : b.Ages b'' where
  clock t u := (first.clock t u).trans (second.clock t u)
  present found := by
    obtain ⟨vc, found⟩ := first.present found
    exact second.present found

theorem Grows.trans (first : b.Grows b') (second : b'.Grows b'') : b.Grows b'' where
  toAges := first.toAges.trans second.toAges
  starts := second.starts.trans first.starts
  joins := second.joins.trans first.joins

theorem GrowsBy.trans (first : b.GrowsBy curr b') (second : b'.GrowsBy curr b'') :
    b.GrowsBy curr b'' where
  toGrows := first.toGrows.trans second.toGrows
  frame other := (second.frame other).trans (first.frame other)

theorem Ages.of_clocks (clocks : b'.currVcMap = b.currVcMap) : b.Ages b' where
  clock t u := by simp only [clockOf, clocks, le_refl]
  present {t vc} found := ⟨vc, clocks ▸ found⟩

/-- Hooks that leave the clocks alone. -/
theorem GrowsBy.of_clocks (clocks : b'.currVcMap = b.currVcMap)
    (starts : b'.threadStartC = b.threadStartC) (joins : b'.threadJoinC = b.threadJoinC) :
    b.GrowsBy curr b' :=
  ⟨⟨.of_clocks clocks, starts, joins⟩, fun _ => by rw [clocks]⟩

theorem GrowsBy.refl (curr : ThreadId) (b : DetectorBase G) : b.GrowsBy curr b :=
  .of_clocks rfl rfl rfl

/-- A thread's clock is replaced by a larger one. -/
theorem GrowsBy.setVc {vc vc' : VectorClock} (found : b.currVcMap[curr]? = some vc)
    (above : ∀ u, vc.getClock u ≤ vc'.getClock u) : b.GrowsBy curr (b.setVc curr vc') where
  clock t u := by
    rw [clockOf_setVc]
    split
    · next same => rw [same, clockOf_of_vc found]; exact above u
    · exact le_rfl
  present {t vc} found := by
    simp only [DetectorBase.setVc, getElem?_insert_thread]
    split
    · exact ⟨_, rfl⟩
    · exact ⟨vc, found⟩
  frame other := by
    simp only [DetectorBase.setVc, getElem?_insert_thread, if_neg (Ne.symm other)]
  starts := rfl
  joins := rfl

theorem le_increment (vc : VectorClock) (t u : ThreadId) :
    vc.getClock u ≤ (vc.increment t).getClock u := by
  rw [VectorClock.getClock_increment]
  split
  · next same => exact same ▸ Nat.le_succ _
  · exact le_rfl

theorem le_join (vc other : VectorClock) (u : ThreadId) :
    vc.getClock u ≤ (vc.join other).getClock u := by
  rw [VectorClock.getClock_join]
  exact le_max_left _ _

theorem processLock_grows (result : b.processLock curr addr = some b') : b.GrowsBy curr b' := by
  simp only [processLock, Option.bind_eq_bind, Option.bind_eq_some_iff, Option.pure_def,
    Option.some.injEq] at result
  obtain ⟨vc, found, rfl⟩ := result
  exact .setVc found (le_join vc _)

theorem processUnlock_grows (result : b.processUnlock curr addr = some b') : b.GrowsBy curr b' := by
  simp only [processUnlock, Option.bind_eq_bind, Option.bind_eq_some_iff, Option.pure_def,
    Option.some.injEq] at result
  obtain ⟨vc, found, rfl⟩ := result
  exact (GrowsBy.setVc found (le_increment vc curr)).trans (.of_clocks rfl rfl rfl)

theorem le_foldl_join (entries : List (ThreadId × VectorClock)) (vc : VectorClock) (u : ThreadId) :
    vc.getClock u ≤ (entries.foldl (fun vc entry => vc.join entry.2) vc).getClock u := by
  induction entries generalizing vc with
  | nil => exact le_rfl
  | cons entry rest ih => exact (le_join vc entry.2 u).trans (ih _)

theorem processNotify_grows (result : b.processNotify curr addr = some b') : b.GrowsBy curr b' := by
  simp only [processNotify, Option.bind_eq_bind, Option.bind_eq_some_iff, Option.pure_def,
    Option.some.injEq] at result
  obtain ⟨vc, found, rfl⟩ := result
  exact (GrowsBy.setVc found fun u => (le_foldl_join _ vc u).trans (le_increment _ curr u)).trans
    (.of_clocks rfl rfl rfl)

theorem processPreWait_grows (result : b.processPreWait curr addr = some b') : b.GrowsBy curr b' := by
  simp only [processPreWait, Option.bind_eq_bind, Option.bind_eq_some_iff, Option.pure_def,
    Option.some.injEq] at result
  obtain ⟨vc, found, rfl⟩ := result
  exact (GrowsBy.setVc found (le_increment vc curr)).trans (.of_clocks rfl rfl rfl)

theorem processPostWait_grows (result : b.processPostWait curr addr = some b') : b.GrowsBy curr b' := by
  simp only [processPostWait, Option.bind_eq_bind, Option.bind_eq_some_iff, Option.pure_def] at result
  obtain ⟨vc, found, _, _, result⟩ := result
  split at result
  · cases result
    exact .of_clocks rfl rfl rfl
  · cases result
    exact (GrowsBy.setVc found (le_join vc _)).trans (.of_clocks rfl rfl rfl)

theorem le_scan {entries : List (ThreadId × (VectorClock × Bool))} {scan last : BarrierMeta.Scan}
    (result : entries.foldlM (BarrierMeta.scanEntry curr) scan = some last) (u : ThreadId) :
    scan.currVc.getClock u ≤ last.currVc.getClock u := by
  induction entries generalizing scan with
  | nil =>
    cases result
    exact le_rfl
  | cons entry rest ih =>
    simp only [List.foldlM_cons, Option.bind_eq_bind, Option.bind_eq_some_iff] at result
    obtain ⟨next, entered, result⟩ := result
    refine le_trans ?_ (ih result)
    have joined : next.currVc = scan.currVc.join entry.2.1 := by
      simp only [BarrierMeta.scanEntry, Option.bind_eq_bind, Option.pure_def] at entered
      split at entered
      · obtain ⟨_, _, same⟩ := Option.bind_eq_some_iff.mp entered
        cases same
        rfl
      · cases entered
        rfl
    rw [joined]
    exact le_join _ _ u

theorem processPreBarrier_grows (result : b.processPreBarrier curr addr = some b') : b.GrowsBy curr b' := by
  simp only [processPreBarrier, Option.bind_eq_bind, Option.bind_eq_some_iff, Option.pure_def,
    Option.some.injEq] at result
  obtain ⟨vc, found, rfl⟩ := result
  exact .of_clocks rfl rfl rfl

theorem processPostBarrier_grows (result : b.processPostBarrier curr addr = some b') :
    b.GrowsBy curr b' := by
  simp only [processPostBarrier, BarrierMeta.processPost, Option.bind_eq_bind, Option.bind_eq_some_iff,
    Option.pure_def, Option.some.injEq] at result
  obtain ⟨vc, found, _, ⟨scan, scanned, rfl⟩, rfl⟩ := result
  exact (GrowsBy.setVc found fun u => (le_scan scanned u).trans (le_increment _ curr u)).trans
    (.of_clocks rfl rfl rfl)

theorem allocAddrRegion_grows {size : Address} (result : b.allocAddrRegion addr size = some b') :
    b.GrowsBy curr b' := by
  simp only [allocAddrRegion, Option.bind_eq_bind, Option.bind_eq_some_iff, Option.pure_def,
    Option.some.injEq] at result
  obtain ⟨_, _, rfl⟩ := result
  exact .of_clocks rfl rfl rfl

theorem allocSection_grows {start size : Address} (result : b.allocSection start size = some b') :
    b.GrowsBy curr b' := by
  unfold allocSection at result
  split at result
  · exact allocAddrRegion_grows result
  · cases result
    exact .refl curr b

theorem imageLoad_grows {low high dataStart dataSize bssStart bssSize : Address}
    (result : b.imageLoad low high dataStart dataSize bssStart bssSize = some b') : b.GrowsBy curr b' := by
  simp only [imageLoad, Option.bind_eq_bind, Option.bind_eq_some_iff] at result
  obtain ⟨_, _, withData, loaded, result⟩ := result
  exact (allocSection_grows loaded).trans (allocSection_grows result)

end DetectorBase
open DetectorBase

section Step
variable {G M : Type} {alg : Algorithm G M} {b b' : DetectorBase G} {curr : ThreadId} {addr : Address}

/-- The virtual functions of a detector class let the clocks grow as those of the
base class do; its join takes in at least the clock of the child. -/
structure Algorithm.Grows (alg : Algorithm G M) : Prop where
  lock : ∀ {b curr addr b'}, alg.processLock b curr addr = some b' → b.GrowsBy curr b'
  unlock : ∀ {b curr addr b'}, alg.processUnlock b curr addr = some b' → b.GrowsBy curr b'
  join : ∀ {b curr child b'}, alg.afterPthreadJoin b curr child = some b' →
    ∃ joined, b.afterPthreadJoin curr child = some joined ∧ joined.GrowsBy curr b'

theorem Algorithm.Grows.base (lock : alg.processLock = DetectorBase.processLock)
    (unlock : alg.processUnlock = DetectorBase.processUnlock)
    (join : alg.afterPthreadJoin = DetectorBase.afterPthreadJoin) : alg.Grows where
  lock result := processLock_grows (lock ▸ result)
  unlock result := processUnlock_grows (unlock ▸ result)
  join result := ⟨_, join ▸ result, .refl _ _⟩

theorem ensureMeta_grows (b : DetectorBase G) (addr : Address) :
    b.GrowsBy curr { b with mutexMetaTable := ensureMeta {} b.mutexMetaTable addr } :=
  .of_clocks rfl rfl rfl

theorem Algorithm.Grows.mutexLock (grows : alg.Grows)
    (result : b.afterPthreadMutexLock alg curr addr = some b') : b.GrowsBy curr b' := by
  obtain ⟨_, _, result⟩ := Option.bind_eq_some_iff.mp result
  exact (ensureMeta_grows b addr).trans (grows.lock result)

theorem Algorithm.Grows.mutexUnlock (grows : alg.Grows)
    (result : b.beforePthreadMutexUnlock alg curr addr = some b') : b.GrowsBy curr b' := by
  obtain ⟨_, _, result⟩ := Option.bind_eq_some_iff.mp result
  exact (ensureMeta_grows b addr).trans (grows.unlock result)

theorem Algorithm.Grows.preWait (grows : alg.Grows) {mutexAddr : Address}
    (result : b.beforePthreadCondWait alg curr addr mutexAddr = some b') : b.GrowsBy curr b' := by
  simp only [beforePthreadCondWait, Option.bind_eq_bind, Option.bind_eq_some_iff] at result
  obtain ⟨_, _, _, _, released, unlocked, result⟩ := result
  exact ((ensureMeta_grows b mutexAddr).trans (grows.unlock unlocked)).trans
    (processPreWait_grows result)

theorem Algorithm.Grows.postWait (grows : alg.Grows) {mutexAddr : Address}
    (result : b.afterPthreadCondWait alg curr addr mutexAddr = some b') : b.GrowsBy curr b' := by
  simp only [afterPthreadCondWait, Option.bind_eq_bind, Option.bind_eq_some_iff] at result
  obtain ⟨_, _, _, _, woken, waited, result⟩ := result
  exact (processPostWait_grows waited).trans
    ((ensureMeta_grows woken mutexAddr).trans (grows.lock result))

/-- Hooks other than thread start and join. -/
theorem Algorithm.Grows.onHook (grows : alg.Grows) {e : Hook}
    (start : ∀ curr parent, e ≠ .threadStart curr parent)
    (join : ∀ curr child, e ≠ .afterPthreadJoin curr child)
    (acting : ∀ t, e.thread = some t → t = curr) (result : b.onHook alg e = some b') :
    b.GrowsBy curr b' := by
  cases e with
  | threadStart t parent => exact absurd rfl (start t parent)
  | afterPthreadJoin t child => exact absurd rfl (join t child)
  | imageLoad => exact imageLoad_grows result
  | afterMalloc | afterValloc | afterRealloc | afterCalloc => exact allocAddrRegion_grows result
  | afterPthreadMutexLock =>
    cases acting _ rfl
    exact grows.mutexLock result
  | beforePthreadMutexUnlock =>
    cases acting _ rfl
    exact grows.mutexUnlock result
  | beforePthreadCondSignal | beforePthreadCondBroadcast =>
    cases acting _ rfl
    obtain ⟨_, _, result⟩ := Option.bind_eq_some_iff.mp result
    exact processNotify_grows result
  | beforePthreadCondWait | beforePthreadCondTimedwait =>
    cases acting _ rfl
    exact grows.preWait result
  | afterPthreadCondWait | afterPthreadCondTimedwait =>
    cases acting _ rfl
    exact grows.postWait result
  | beforePthreadBarrierWait =>
    cases acting _ rfl
    obtain ⟨_, _, result⟩ := Option.bind_eq_some_iff.mp result
    exact processPreBarrier_grows result
  | afterPthreadBarrierWait =>
    cases acting _ rfl
    obtain ⟨_, _, result⟩ := Option.bind_eq_some_iff.mp result
    exact processPostBarrier_grows result
  | _ =>
    cases result
    exact .of_clocks rfl rfl rfl

/-- Every hook is made by one thread at most. -/
theorem Hook.acting (e : Hook) : ∃ curr, ∀ t, e.thread = some t → t = curr := by
  cases made : e.thread with
  | none => exact ⟨invalidThdId, fun _ same => nomatch same⟩
  | some curr => exact ⟨curr, fun _ same => (Option.some.inj same).symm⟩

theorem threadStart_counts {parent : ThreadId} (result : b.threadStart curr parent = some b') :
    b'.threadStartC = b.threadStartC + 1 ∧ b'.threadJoinC = b.threadJoinC := by
  by_cases main : parent = invalidThdId
  · subst main
    rw [b.threadStart_main curr, Option.some.injEq] at result
    subst result
    exact ⟨rfl, rfl⟩
  · cases found : b.currVcMap[parent]? with
    | none => simp [threadStart, main, found] at result
    | some vc =>
      rw [b.threadStart_child curr main found, Option.some.injEq] at result
      subst result
      exact ⟨rfl, rfl⟩

theorem afterPthreadJoin_counts {child : ThreadId} (result : b.afterPthreadJoin curr child = some b') :
    b'.threadStartC = b.threadStartC ∧ b'.threadJoinC = b.threadJoinC + 1 := by
  simp only [afterPthreadJoin, Option.bind_eq_bind, Option.bind_eq_some_iff, Option.pure_def,
    Option.some.injEq] at result
  obtain ⟨_, _, _, _, rfl⟩ := result
  exact ⟨rfl, rfl⟩

theorem Progress.threads_next (p : Progress) {e : Hook} (start : ∀ curr parent, e ≠ .threadStart curr parent)
    (join : ∀ curr child, e ≠ .afterPthreadJoin curr child) :
    (p.next e).started = p.started ∧ (p.next e).joined = p.joined := by
  cases e with
  | threadStart curr parent => exact absurd rfl (start curr parent)
  | afterPthreadJoin curr child => exact absurd rfl (join curr child)
  | beforePthreadMutexUnlock _ addr => exact ⟨p.started_unlock addr, p.joined_unlock addr⟩
  | _ => exact ⟨rfl, rfl⟩

/-- The counters count the starts and joins of the trace. -/
theorem Algorithm.Grows.counted (grows : alg.Grows) {e : Hook} (result : b.onHook alg e = some b')
    {p : Progress} (counted : b.Counted p) : b'.Counted (p.next e) := by
  by_cases start : ∃ curr parent, e = .threadStart curr parent
  · obtain ⟨curr, parent, rfl⟩ := start
    have started : b.threadStart curr parent = some b' := result
    obtain ⟨starts, joins⟩ := threadStart_counts started
    simp [Counted, Progress.next, starts, joins, counted.1, counted.2]
  by_cases join : ∃ curr child, e = .afterPthreadJoin curr child
  · obtain ⟨curr, child, rfl⟩ := join
    obtain ⟨joined, taken, grown⟩ := grows.join result
    obtain ⟨starts, joins⟩ := afterPthreadJoin_counts taken
    simp [Counted, Progress.next, grown.starts, grown.joins, starts, joins, counted.1, counted.2]
  obtain ⟨curr, acting⟩ := e.acting
  have noStart : ∀ curr parent, e ≠ .threadStart curr parent :=
    fun curr parent same => start ⟨curr, parent, same⟩
  have noJoin : ∀ curr child, e ≠ .afterPthreadJoin curr child :=
    fun curr child same => join ⟨curr, child, same⟩
  have grown := grows.onHook noStart noJoin acting result
  have same := p.threads_next noStart noJoin
  rw [Counted, grown.starts, grown.joins, same.1, same.2]
  exact counted

theorem freeAddrRegion_grows (d : Detector G M) (curr : ThreadId) (addr : Address) :
    d.toDetectorBase.GrowsBy curr (d.freeAddrRegion alg addr).1.toDetectorBase := by
  unfold Detector.freeAddrRegion
  split
  · exact .refl _ _
  · exact .of_clocks rfl rfl rfl

/-- A hook of the detector does to the clocks what it does to the base state. -/
theorem Detector.step_base {d next : Detector G M} {e : Hook} {out : List DbCall}
    (stepped : d.step alg e = some (next, out)) :
    ∃ b, d.onHook alg e = some b ∧ ∀ curr, b.GrowsBy curr next.toDetectorBase := by
  have accessed : ∀ {process curr inst addr size},
      d.beforeMem alg process curr inst addr size = some (next, out) →
      ∀ t, d.toDetectorBase.GrowsBy t next.toDetectorBase := by
    intro process curr inst addr size stepped t
    unfold Detector.beforeMem at stepped
    split at stepped
    · obtain ⟨_, _, same⟩ := Option.bind_eq_some_iff.mp stepped
      cases same
      exact .refl t _
    · cases stepped
      exact .refl t _
  have silent : ∀ {result : Option (DetectorBase G)}, d.silent result = some (next, out) →
      ∃ b, result = some b ∧ ∀ t, b.GrowsBy t next.toDetectorBase := by
    intro result stepped
    obtain ⟨b, found, same⟩ := Option.map_eq_some_iff.mp stepped
    cases same
    exact ⟨b, found, fun t => .refl t b⟩
  cases e with
  | beforeMemRead => exact ⟨_, rfl, accessed stepped⟩
  | beforeMemWrite => exact ⟨_, rfl, accessed stepped⟩
  | beforeRealloc addr | beforeFree addr =>
    have freed : (d.freeAddrRegion alg addr).1 = next := congrArg Prod.fst (Option.some.inj stepped)
    exact ⟨_, rfl, fun t => freed ▸ freeAddrRegion_grows d t addr⟩
  | imageUnload lowAddr dataStart bssStart =>
    obtain ⟨_, _, same⟩ := Option.bind_eq_some_iff.mp stepped
    cases same
    exact ⟨_, rfl, fun t => (freeAddrRegion_grows d t _).trans (freeAddrRegion_grows _ t _)⟩
  | _ => exact silent stepped

/-! The clock of a thread, hook by hook. -/

theorem clockOf_congr {t : ThreadId} (same : b'.currVcMap[t]? = b.currVcMap[t]?) (u : ThreadId) :
    b'.clockOf (.thread t) u = b.clockOf (.thread t) u := by
  simp only [DetectorBase.clockOf, same]

theorem Detector.step_clockOf {d next : Detector G M} {e : Hook} {out : List DbCall}
    (stepped : d.step alg e = some (next, out)) :
    ∃ b, d.onHook alg e = some b ∧
      ∀ t u, next.clockOf (.thread t) u = b.clockOf (.thread t) u := by
  obtain ⟨b, result, grown⟩ := Detector.step_base stepped
  refine ⟨b, result, fun t u => clockOf_congr ((grown (t + 1)).frame ?_) u⟩
  exact Nat.ne_of_lt (Nat.lt_succ_self t)

/-- A start reads and ticks the clock of the parent in one go. -/
theorem threadStart_clocks {parent : ThreadId} (child : parent ≠ invalidThdId)
    (result : b.threadStart curr parent = some b') (t u : ThreadId) :
    b'.clockOf (.thread t) u =
      if t = curr then max ((({} : VectorClock).increment curr).getClock u) (b.clockOf (.thread parent) u)
      else if t = parent ∧ u = parent then b.clockOf (.thread parent) parent + 1
      else b.clockOf (.thread t) u := by
  cases found : b.currVcMap[parent]? with
  | none => simp [threadStart, child, found] at result
  | some vc =>
    rw [b.threadStart_child curr child found, Option.some.injEq] at result
    subst result
    simp only [clockOf_enroll, clockOf_setVc, Channel.thread.injEq, VectorClock.getClock_join,
      VectorClock.getClock_increment, clockOf_of_vc found]
    by_cases own : t = curr
    · simp only [own, if_true]
    by_cases same : t = parent
    · subst same
      by_cases tick : t = u <;> simp [own, tick, clockOf_of_vc found, eq_comm]
    · simp only [own, same, false_and, if_false]

theorem threadStart_others {parent t : ThreadId} (result : b.threadStart curr parent = some b')
    (other : t ≠ curr) (u : ThreadId) :
    b.clockOf (.thread t) u ≤ b'.clockOf (.thread t) u ∧
      (u ≠ t → b'.clockOf (.thread t) u = b.clockOf (.thread t) u) := by
  by_cases main : parent = invalidThdId
  · subst main
    rw [b.threadStart_main curr, Option.some.injEq] at result
    subst result
    have same : ((b.setVc curr (({} : VectorClock).increment curr)).enroll curr).clockOf (.thread t) u =
        b.clockOf (.thread t) u := by
      rw [clockOf_enroll, clockOf_setVc, if_neg (fun same => other (Channel.thread.inj same))]
    exact ⟨Nat.le_of_eq same.symm, fun _ => same⟩
  · rw [threadStart_clocks main result t u, if_neg other]
    split
    · next ticked =>
      rw [ticked.1, ticked.2]
      exact ⟨Nat.le_succ _, fun apart => absurd rfl apart⟩
    · exact ⟨le_rfl, fun _ => rfl⟩

theorem threadStart_mem {parent t : ThreadId} (result : b.threadStart curr parent = some b')
    (known : t ∈ b.currVcMap) : t ∈ b'.currVcMap := by
  unfold DetectorBase.threadStart at result
  dsimp only at result
  split at result
  · obtain ⟨_, _, same⟩ := Option.bind_eq_some_iff.mp result
    cases same
    simp only [enroll, setVc, Std.ExtTreeMap.mem_insert]
    exact Or.inr (Or.inr known)
  · cases result
    simp only [enroll, setVc, Std.ExtTreeMap.mem_insert]
    exact Or.inr known

theorem afterPthreadJoin_growsBy {child : ThreadId} (result : b.afterPthreadJoin curr child = some b') :
    b.Ages b' ∧ ∀ {t}, t ≠ curr → b'.currVcMap[t]? = b.currVcMap[t]? := by
  simp only [afterPthreadJoin, Option.bind_eq_bind, Option.bind_eq_some_iff, Option.pure_def,
    Option.some.injEq] at result
  obtain ⟨currVc, found, childVc, _, rfl⟩ := result
  have set := GrowsBy.setVc found (le_join currVc childVc)
  exact ⟨set.toAges.trans (.of_clocks rfl), fun other => set.frame other⟩

/-- No clock goes back, but where a thread starts. -/
theorem Algorithm.Grows.clock_le (grows : alg.Grows) {e : Hook} (result : b.onHook alg e = some b')
    {t : ThreadId} (other : ∀ parent, e ≠ .threadStart t parent) (u : ThreadId) :
    b.clockOf (.thread t) u ≤ b'.clockOf (.thread t) u := by
  by_cases start : ∃ curr parent, e = .threadStart curr parent
  · obtain ⟨curr, parent, rfl⟩ := start
    refine (threadStart_others result (fun same => ?_) u).1
    exact other parent (same ▸ rfl)
  by_cases join : ∃ curr child, e = .afterPthreadJoin curr child
  · obtain ⟨curr, child, rfl⟩ := join
    obtain ⟨joined, taken, grown⟩ := grows.join result
    exact ((afterPthreadJoin_growsBy taken).1.clock t u).trans (grown.clock t u)
  obtain ⟨curr, acting⟩ := e.acting
  exact (grows.onHook (fun curr parent same => start ⟨curr, parent, same⟩)
    (fun curr child same => join ⟨curr, child, same⟩) acting result).clock t u

/-- A hook of another thread leaves what a thread has seen of third threads alone. -/
theorem Algorithm.Grows.clock_eq (grows : alg.Grows) {e : Hook} (result : b.onHook alg e = some b')
    {t u : ThreadId} (other : e.thread ≠ some t) (apart : u ≠ t) :
    b'.clockOf (.thread t) u = b.clockOf (.thread t) u := by
  by_cases start : ∃ curr parent, e = .threadStart curr parent
  · obtain ⟨curr, parent, rfl⟩ := start
    exact (threadStart_others result (fun same => other (same ▸ rfl)) u).2 apart
  by_cases join : ∃ curr child, e = .afterPthreadJoin curr child
  · obtain ⟨curr, child, rfl⟩ := join
    obtain ⟨joined, taken, grown⟩ := grows.join result
    have mine : t ≠ curr := fun same => other (same ▸ rfl)
    exact (clockOf_congr (grown.frame mine) u).trans
      (clockOf_congr ((afterPthreadJoin_growsBy taken).2 mine) u)
  have grown : ∃ curr, t ≠ curr ∧ ∀ v, e.thread = some v → v = curr := by
    cases made : e.thread with
    | none => exact ⟨t + 1, Nat.ne_of_lt (Nat.lt_succ_self t), fun _ same => nomatch same⟩
    | some curr =>
      exact ⟨curr, fun same => other (same ▸ made), fun _ same => (Option.some.inj same).symm⟩
  obtain ⟨curr, mine, acting⟩ := grown
  exact clockOf_congr ((grows.onHook (fun curr parent same => start ⟨curr, parent, same⟩)
    (fun curr child same => join ⟨curr, child, same⟩) acting result).frame mine) u

/-- No thread loses its clock. -/
theorem Algorithm.Grows.mem (grows : alg.Grows) {e : Hook} (result : b.onHook alg e = some b') {t : ThreadId}
    (known : t ∈ b.currVcMap) : t ∈ b'.currVcMap := by
  have present : b.Ages b' → t ∈ b'.currVcMap := by
    intro ages
    obtain ⟨vc, found⟩ := ages.present (Std.ExtTreeMap.getElem?_eq_some_getElem known)
    rw [Std.ExtTreeMap.mem_iff_isSome_getElem?, found]
    rfl
  by_cases start : ∃ curr parent, e = .threadStart curr parent
  · obtain ⟨curr, parent, rfl⟩ := start
    exact threadStart_mem result known
  by_cases join : ∃ curr child, e = .afterPthreadJoin curr child
  · obtain ⟨curr, child, rfl⟩ := join
    obtain ⟨joined, taken, grown⟩ := grows.join result
    exact present ((afterPthreadJoin_growsBy taken).1.trans grown.toAges)
  obtain ⟨curr, acting⟩ := e.acting
  exact present (grows.onHook (fun curr parent same => start ⟨curr, parent, same⟩)
    (fun curr child same => join ⟨curr, child, same⟩) acting result).toAges

/-- The members of a subclass change in its virtual functions only. -/
structure Algorithm.Moves (alg : Algorithm G M) (R : G → G → Prop) : Prop where
  refl : ∀ own, R own own
  lock : ∀ {b curr addr b'}, alg.processLock b curr addr = some b' → R b.own b'.own
  unlock : ∀ {b curr addr b'}, alg.processUnlock b curr addr = some b' → R b.own b'.own
  join : ∀ {b curr child b'}, alg.afterPthreadJoin b curr child = some b' → R b.own b'.own
  call : ∀ own curr target, R own (alg.beforeCall own curr target)

theorem threadStart_own {parent : ThreadId}
    (result : b.threadStart curr parent = some b') : b'.own = b.own := by
  unfold DetectorBase.threadStart at result
  dsimp only at result
  split at result
  · obtain ⟨_, _, same⟩ := Option.bind_eq_some_iff.mp result
    cases same
    rfl
  · cases result
    rfl

theorem processPreWait_own (result : b.processPreWait curr addr = some b') : b'.own = b.own := by
  obtain ⟨_, _, same⟩ := Option.bind_eq_some_iff.mp result
  cases same
  rfl

theorem processPostWait_own (result : b.processPostWait curr addr = some b') : b'.own = b.own := by
  simp only [processPostWait, Option.bind_eq_bind, Option.bind_eq_some_iff, Option.pure_def] at result
  obtain ⟨_, _, _, _, result⟩ := result
  split at result <;> cases result <;> rfl

theorem allocAddrRegion_own {size : Address} (result : b.allocAddrRegion addr size = some b') : b'.own = b.own := by
  obtain ⟨_, _, same⟩ := Option.bind_eq_some_iff.mp result
  cases same
  rfl

theorem allocSection_own {start size : Address} (result : b.allocSection start size = some b') : b'.own = b.own := by
  unfold allocSection at result
  split at result
  · exact allocAddrRegion_own result
  · cases result
    rfl

/-- Mutex operations of the hooks. -/
inductive LockOp where
  | take (curr : ThreadId) (addr : Address)
  | drop (curr : ThreadId) (addr : Address)
  deriving DecidableEq

def Hook.lockOp : Hook → Option LockOp
  | .afterPthreadMutexLock curr addr | .afterPthreadCondWait curr _ addr
  | .afterPthreadCondTimedwait curr _ addr => some (.take curr addr)
  | .beforePthreadMutexUnlock curr addr | .beforePthreadCondWait curr _ addr
  | .beforePthreadCondTimedwait curr _ addr => some (.drop curr addr)
  | _ => none

/-- The members of a subclass, before and after a hook. -/
inductive OwnStep (alg : Algorithm G M) : Hook → G → G → Prop
  | still {e : Hook} {own : G} (idle : e.lockOp = none) : OwnStep alg e own own
  | lock {e : Hook} {b b' : DetectorBase G} {curr : ThreadId} {addr : Address}
      (op : e.lockOp = some (.take curr addr)) (ran : alg.processLock b curr addr = some b') :
      OwnStep alg e b.own b'.own
  | unlock {e : Hook} {b b' : DetectorBase G} {curr : ThreadId} {addr : Address}
      (op : e.lockOp = some (.drop curr addr)) (ran : alg.processUnlock b curr addr = some b') :
      OwnStep alg e b.own b'.own
  | join {b b' : DetectorBase G} {curr child : ThreadId} (ran : alg.afterPthreadJoin b curr child = some b') :
      OwnStep alg (.afterPthreadJoin curr child) b.own b'.own
  | call {own : G} {curr : ThreadId} {target : Address} :
      OwnStep alg (.beforeCall curr target) own (alg.beforeCall own curr target)

theorem Algorithm.onHook_own {e : Hook} (result : b.onHook alg e = some b') : OwnStep alg e b.own b'.own := by
  have still : e.lockOp = none → b'.own = b.own → OwnStep alg e b.own b'.own := by
    intro idle same
    rw [same]
    exact .still idle
  have locked : ∀ {c c' : DetectorBase G} {curr addr}, e.lockOp = some (.take curr addr) →
      alg.processLock c curr addr = some c' → c.own = b.own → c'.own = b'.own → OwnStep alg e b.own b'.own := by
    intro c c' curr addr op ran before after
    rw [← before, ← after]
    exact .lock op ran
  have unlocked : ∀ {c c' : DetectorBase G} {curr addr}, e.lockOp = some (.drop curr addr) →
      alg.processUnlock c curr addr = some c' → c.own = b.own → c'.own = b'.own → OwnStep alg e b.own b'.own := by
    intro c c' curr addr op ran before after
    rw [← before, ← after]
    exact .unlock op ran
  cases e with
  | threadStart => exact still rfl (threadStart_own result)
  | afterPthreadJoin => exact .join result
  | beforeCall curr target =>
    cases result
    exact .call
  | imageLoad =>
    simp only [DetectorBase.onHook, imageLoad, Option.bind_eq_bind, Option.bind_eq_some_iff] at result
    obtain ⟨_, _, withData, data, bss⟩ := result
    exact still rfl ((allocSection_own bss).trans (allocSection_own data))
  | afterMalloc | afterValloc | afterRealloc | afterCalloc => exact still rfl (allocAddrRegion_own result)
  | afterPthreadMutexLock =>
    obtain ⟨_, _, result⟩ := Option.bind_eq_some_iff.mp result
    exact locked rfl result rfl rfl
  | beforePthreadMutexUnlock =>
    obtain ⟨_, _, result⟩ := Option.bind_eq_some_iff.mp result
    exact unlocked rfl result rfl rfl
  | beforePthreadCondWait | beforePthreadCondTimedwait =>
    simp only [DetectorBase.onHook, beforePthreadCondWait, Option.bind_eq_bind, Option.bind_eq_some_iff] at result
    obtain ⟨_, _, _, _, released, ran, result⟩ := result
    exact unlocked rfl ran rfl (processPreWait_own result).symm
  | afterPthreadCondWait | afterPthreadCondTimedwait =>
    simp only [DetectorBase.onHook, afterPthreadCondWait, Option.bind_eq_bind, Option.bind_eq_some_iff] at result
    obtain ⟨_, _, _, _, woken, waited, result⟩ := result
    have kept : woken.own = b.own := processPostWait_own waited
    exact locked rfl result kept rfl
  | beforePthreadCondSignal | beforePthreadCondBroadcast =>
    obtain ⟨_, _, result⟩ := Option.bind_eq_some_iff.mp result
    obtain ⟨_, _, same⟩ := Option.bind_eq_some_iff.mp result
    cases same
    exact .still rfl
  | beforePthreadBarrierWait =>
    obtain ⟨_, _, result⟩ := Option.bind_eq_some_iff.mp result
    obtain ⟨_, _, same⟩ := Option.bind_eq_some_iff.mp result
    cases same
    exact .still rfl
  | afterPthreadBarrierWait =>
    obtain ⟨_, _, result⟩ := Option.bind_eq_some_iff.mp result
    obtain ⟨_, _, result⟩ := Option.bind_eq_some_iff.mp result
    obtain ⟨_, _, same⟩ := Option.bind_eq_some_iff.mp result
    cases same
    exact .still rfl
  | _ =>
    cases result
    exact .still rfl

theorem Algorithm.Moves.onHook {R : G → G → Prop} (moves : alg.Moves R) {e : Hook}
    (result : b.onHook alg e = some b') : R b.own b'.own := by
  have step := Algorithm.onHook_own result
  generalize b.own = own, b'.own = own' at step ⊢
  cases step with
  | still => exact moves.refl own
  | lock op ran => exact moves.lock ran
  | unlock op ran => exact moves.unlock ran
  | join ran => exact moves.join ran
  | call => exact moves.call own _ _

end Step
end Maple.Race
