import Maple.Race.Accesses
import Maple.Race.Djit

/-! Exactness of Djit. One clock and one instruction table remember each thread's
latest access to a unit, and that is enough: an earlier access of a thread is
ordered before whatever its latest one is ordered before. -/
namespace Maple.Race

/-- Thread `t` accessed last at position `i` among the first `n` hooks. -/
def Latest (acc : ℕ → ThreadId → InstId → Prop) (n : ℕ) (t : ThreadId) (i : ℕ) (inst : InstId) : Prop :=
  i < n ∧ acc i t inst ∧ ∀ j < n, ∀ inst', acc j t inst' → j ≤ i

/-- Thread `t` made an access that is not ordered before position `n`. -/
def Racing (order : Causality.Model Hook Channel) (tr : List Hook)
    (acc : ℕ → ThreadId → InstId → Prop) (n : ℕ) (curr t : ThreadId) : Prop :=
  t ≠ curr ∧ ∃ i < n, ∃ inst, acc i t inst ∧ ¬ order.HB tr i n

/-- A clock and an instruction table that hold the stamp and the instruction of
each thread's latest access. -/
structure Shadow (epoch : Stamps) (acc : ℕ → ThreadId → InstId → Prop) (n : ℕ) (vc : VectorClock)
    (table : OrdMap ThreadId InstId) : Prop where
  entry : ∀ {t : ThreadId} {s}, vc.map[t]? = some s → ∃ i inst, Latest acc n t i inst ∧
    epoch i = some (t, s) ∧ table[t]? = some inst
  covered : ∀ {i t inst}, i < n → acc i t inst → ∃ s, vc.map[t]? = some s

section Shadow
variable {epoch epoch' : Stamps} {acc : ℕ → ThreadId → InstId → Prop} {n : ℕ} {vc : VectorClock}
  {table : OrdMap ThreadId InstId}

theorem Shadow.blank : Shadow epoch acc 0 {} ∅ where
  entry found := by simp at found
  covered bound := absurd bound (Nat.not_lt_zero _)

theorem Shadow.restamp (shadow : Shadow epoch acc n vc table) (same : ∀ i < n, epoch' i = epoch i) :
    Shadow epoch' acc n vc table where
  entry found := by
    obtain ⟨i, inst, latest, stamp, named⟩ := shadow.entry found
    exact ⟨i, inst, latest, (same i latest.1).trans stamp, named⟩
  covered := shadow.covered

theorem Latest.skip {t : ThreadId} {i : ℕ} {inst : InstId} (latest : Latest acc n t i inst)
    (none : ∀ inst, ¬ acc n t inst) : Latest acc (n + 1) t i inst := by
  refine ⟨Nat.lt_succ_of_lt latest.1, latest.2.1, fun j bound inst' access => ?_⟩
  rcases Nat.lt_succ_iff_lt_or_eq.mp bound with earlier | rfl
  · exact latest.2.2 j earlier inst' access
  · exact absurd access (none inst')

theorem Shadow.skip (shadow : Shadow epoch acc n vc table) (none : ∀ t inst, ¬ acc n t inst) :
    Shadow epoch acc (n + 1) vc table where
  entry {t s} found := by
    obtain ⟨i, inst, latest, stamp, named⟩ := shadow.entry found
    exact ⟨i, inst, latest.skip (none t), stamp, named⟩
  covered {i t inst} bound access := by
    rcases Nat.lt_succ_iff_lt_or_eq.mp bound with earlier | rfl
    · exact shadow.covered earlier access
    · exact absurd access (none t inst)

/-- `SetClock` and the instruction table record the access at hand. -/
theorem Shadow.record (shadow : Shadow epoch acc n vc table) {curr : ThreadId} {s : ℕ} {inst : InstId}
    (here : acc n curr inst) (alone : ∀ {t inst'}, acc n t inst' → t = curr)
    (stamp : epoch n = some (curr, s)) :
    Shadow epoch acc (n + 1) (vc.setClock curr s) (table.insert curr inst) where
  entry {t s'} found := by
    simp only [VectorClock.setClock, getElem?_insert_thread] at found ⊢
    by_cases same : curr = t
    · subst same
      simp only [if_true, Option.some.injEq] at found
      subst found
      exact ⟨n, inst, ⟨Nat.lt_succ_self n, here, fun j bound _ _ => Nat.le_of_lt_succ bound⟩, stamp,
        by simp⟩
    · rw [if_neg same] at found
      obtain ⟨i, inst', latest, stamp', named⟩ := shadow.entry found
      exact ⟨i, inst', latest.skip (fun _ access => same (alone access).symm), stamp',
        by rw [if_neg same]; exact named⟩
  covered {i t inst'} bound access := by
    simp only [VectorClock.setClock, getElem?_insert_thread]
    split
    · exact ⟨s, rfl⟩
    · next other =>
        rcases Nat.lt_succ_iff_lt_or_eq.mp bound with earlier | rfl
        · exact shadow.covered earlier access
        · exact absurd (alone access).symm other

variable {G : Type} {order : Causality.Model Hook Channel} {tr : List Hook} {b : DetectorBase G}
  {curr : ThreadId} {currVc : VectorClock}

/-- The unseen entries of a shadow are the threads with an unordered access. -/
theorem Shadow.unseen_iff (shadow : Shadow epoch acc n vc table) (hooks : HookOrder order)
    (sync : SyncInv order tr (n + 1) b epoch) {l : RaceEventType} {inst : InstId} {addr size : Address}
    (here : tr[n]? = some (l.hook curr inst addr size)) (found : b.currVcMap[curr]? = some currVc)
    (acting : ∀ {i t inst}, acc i t inst → ∃ e, tr[i]? = some e ∧ e.thread = some t) (t : ThreadId) :
    Unseen curr currVc vc t ↔ Racing order tr acc n curr t := by
  -- the stamp of the latest access decides whether that access is ordered
  have decides : ∀ {i s}, i < n → epoch i = some (t, s) →
      (currVc.getClock t < s ↔ ¬ order.HB tr i n) := by
    intro i s bound stamp
    rw [hooks.hb_access_iff here, ← hooks.known_access here bound.ne (.thread curr)]
    have exact := sync.exact.exact stamp (.thread curr)
    simp only [DetectorBase.view, clockOf_of_vc found] at exact
    rw [exact, Nat.not_le]
  refine and_congr_right fun _ => ?_
  constructor
  · intro above
    cases stored : vc.map[t]? with
    | none => simp [VectorClock.getClock, stored] at above
    | some s =>
      obtain ⟨i, inst', latest, stamp, _⟩ := shadow.entry stored
      have clock : vc.getClock t = s := by simp [VectorClock.getClock, stored]
      exact ⟨i, latest.1, inst', latest.2.1, (decides latest.1 stamp).mp (clock ▸ above)⟩
  · rintro ⟨j, bound, inst', access, unordered⟩
    obtain ⟨s, stored⟩ := shadow.covered bound access
    obtain ⟨i, inst₀, latest, stamp, _⟩ := shadow.entry stored
    have clock : vc.getClock t = s := by simp [VectorClock.getClock, stored]
    rw [clock, decides latest.1 stamp]
    intro ordered
    obtain ⟨d, first, actsFirst⟩ := acting access
    obtain ⟨e, second, actsSecond⟩ := acting latest.2.1
    rcases Nat.eq_or_lt_of_le (latest.2.2 j bound inst' access) with rfl | earlier
    · exact unordered ordered
    · exact unordered ((hooks.hb_of_thread first second actsFirst actsSecond earlier).trans ordered)

theorem Latest.unique {t : ThreadId} {i j : ℕ} {inst inst' : InstId} (first : Latest acc n t i inst)
    (second : Latest acc n t j inst') : i = j :=
  Nat.le_antisymm (second.2.2 i first.1 inst first.2.1) (first.2.2 j second.1 inst' second.2.1)

/-- The check of `ProcessRead` and `ProcessWrite` against one shadow. -/
theorem Shadow.check (shadow : Shadow epoch acc n vc table) (hooks : HookOrder order)
    (sync : SyncInv order tr (n + 1) b epoch) {l : RaceEventType} {inst : InstId} {addr size : Address}
    (here : tr[n]? = some (l.hook curr inst addr size)) (found : b.currVcMap[curr]? = some currVc)
    (acting : ∀ {i t inst}, acc i t inst → ∃ e, tr[i]? = some e ∧ e.thread = some t)
    (single : ∀ {i t inst inst'}, acc i t inst → acc i t inst' → inst = inst')
    (report : ThreadId → InstId → RaceReport) :
    ∃ raced calls, checkAccesses curr currVc vc table report = some (raced, calls) ∧
      (raced = true ↔ ∃ t, Racing order tr acc n curr t) ∧
      ∀ call, call ∈ calls ↔ ∃ t i inst, Racing order tr acc n curr t ∧ Latest acc n t i inst ∧
        call = .createRace (report t inst) := by
  have own : vc.getClock curr ≤ currVc.getClock curr := by
    cases stored : vc.map[curr]? with
    | none => simp [VectorClock.getClock, stored]
    | some s =>
      obtain ⟨i, inst', latest, stamp, _⟩ := shadow.entry stored
      have bound := (sync.exact.stamped stamp).2.2
      simp only [DetectorBase.view, clockOf_of_vc found] at bound
      simpa [VectorClock.getClock, stored] using bound
  obtain ⟨raced, calls, ran, marked, reported⟩ := checkAccesses_spec report
    (fun t s stored => by
      obtain ⟨_, inst', _, _, named⟩ := shadow.entry stored
      exact ⟨inst', named⟩)
    (fun t s stored => by
      obtain ⟨_, _, _, stamp, _⟩ := shadow.entry stored
      exact (sync.exact.stamped stamp).2.1) own
  have unseen := shadow.unseen_iff hooks sync here found acting
  refine ⟨raced, calls, ran, by simp only [marked, unseen], fun call => ?_⟩
  rw [reported]
  constructor
  · rintro ⟨t, inst', above, named, rfl⟩
    obtain ⟨i, bound, inst₀, access, _⟩ := ((unseen t).mp above).2
    obtain ⟨s, stored⟩ := shadow.covered bound access
    obtain ⟨j, inst₁, latest, _, named'⟩ := shadow.entry stored
    cases named.symm.trans named'
    exact ⟨t, j, inst', (unseen t).mp above, latest, rfl⟩
  · rintro ⟨t, i, inst', racing, latest, rfl⟩
    obtain ⟨s, stored⟩ := shadow.covered latest.1 latest.2.1
    obtain ⟨j, inst₁, latest', _, named⟩ := shadow.entry stored
    cases latest.unique latest'
    cases single latest.2.1 latest'.2.1
    exact ⟨t, inst', (unseen t).mpr racing, named, rfl⟩

end Shadow

/-- At least one of two accesses writes. -/
def Conflict (k l : RaceEventType) : Prop := k = .write ∨ l = .write

section Djit
variable {G : Type} {order : Causality.Model Hook Channel} {opened : Progress → Bool}
  {Own : Progress → G → Prop} {unitSize : Address} {tr : List Hook} {k : RaceEventType} {x : Address}
  {i n : ℕ} {t : ThreadId} {inst : InstId}

theorem Processed.acting (processed : Processed opened unitSize tr k x i t inst) :
    ∃ e, tr[i]? = some e ∧ e.thread = some t := by
  obtain ⟨⟨_, _, here, _⟩, _⟩ := processed
  exact ⟨_, here, thread_hook ..⟩

theorem Processed.single {inst' : InstId} (first : Processed opened unitSize tr k x i t inst)
    (second : Processed opened unitSize tr k x i t inst') : inst = inst' :=
  (first.1.unique second.1).2.2

/-- An access at position `n` to `x` that races with an earlier one. -/
def RacyAt (order : Causality.Model Hook Channel) (opened : Progress → Bool) (unitSize : Address)
    (tr : List Hook) (x : Address) (n : ℕ) : Prop :=
  ∃ l u inst, Processed opened unitSize tr l x n u inst ∧ ∃ k t, Conflict k l ∧
    Racing order tr (Processed opened unitSize tr k x) n u t

/-- The reports that are due when position `n` accesses `x`. -/
def RaceDue (order : Causality.Model Hook Channel) (opened : Progress → Bool) (unitSize : Address)
    (tr : List Hook) (n : ℕ) (x : Address) (call : DbCall) : Prop :=
  ∃ l u inst', Processed opened unitSize tr l x n u inst' ∧ ∃ k t i inst, Conflict k l ∧
    Racing order tr (Processed opened unitSize tr k x) n u t ∧
    Latest (Processed opened unitSize tr k x) n t i inst ∧
    call = .createRace ⟨x, t, inst, k, u, inst', l⟩

structure DjitInv (order : Causality.Model Hook Channel) (opened : Progress → Bool)
    (unitSize : Address) (tr : List Hook) (epoch : Stamps) (n : ℕ) (x : Address) (m : DjitMeta) :
    Prop where
  writers : Shadow epoch (Processed opened unitSize tr .write x) n m.writerVc m.writerInstTable
  readers : Shadow epoch (Processed opened unitSize tr .read x) n m.readerVc m.readerInstTable
  racy : m.racy = true ↔ ∃ j < n, RacyAt order opened unitSize tr x j

theorem exists_lt_succ_iff {P : ℕ → Prop} : (∃ j < n + 1, P j) ↔ (∃ j < n, P j) ∨ P n := by
  constructor
  · rintro ⟨j, bound, holds⟩
    rcases Nat.lt_succ_iff_lt_or_eq.mp bound with earlier | rfl
    · exact Or.inl ⟨j, earlier, holds⟩
    · exact Or.inr holds
  · rintro (⟨j, bound, holds⟩ | holds)
    · exact ⟨j, Nat.lt_succ_of_lt bound, holds⟩
    · exact ⟨n, Nat.lt_succ_self n, holds⟩

theorem DjitInv.skip {epoch : Stamps} {m : DjitMeta}
    (inv : DjitInv order opened unitSize tr epoch n x m)
    (none : ∀ k t inst, ¬ Processed opened unitSize tr k x n t inst) :
    DjitInv order opened unitSize tr epoch (n + 1) x m := by
  refine ⟨inv.writers.skip (none _), inv.readers.skip (none _), ?_⟩
  have calm : ¬ RacyAt order opened unitSize tr x n := fun ⟨l, u, i, processed, _⟩ =>
    none l u i processed
  rw [inv.racy, exists_lt_succ_iff, or_iff_left calm]

/-- Races of a read: only with writers. -/
theorem racyAt_read_iff (here : Processed opened unitSize tr .read x n t inst) :
    RacyAt order opened unitSize tr x n ↔
      ∃ u, Racing order tr (Processed opened unitSize tr .write x) n t u := by
  constructor
  · rintro ⟨l, u, i, processed, k, v, rfl | rfl, racing⟩
    · obtain ⟨_, rfl, _⟩ := processed.1.unique here.1
      exact ⟨v, racing⟩
    · exact nomatch (processed.1.unique here.1).1
  · rintro ⟨u, racing⟩
    exact ⟨.read, t, inst, here, .write, u, Or.inl rfl, racing⟩

theorem racyAt_write_iff (here : Processed opened unitSize tr .write x n t inst) :
    RacyAt order opened unitSize tr x n ↔
      (∃ u, Racing order tr (Processed opened unitSize tr .write x) n t u) ∨
      ∃ u, Racing order tr (Processed opened unitSize tr .read x) n t u := by
  constructor
  · rintro ⟨l, u, i, processed, k, v, _, racing⟩
    obtain ⟨_, rfl, _⟩ := processed.1.unique here.1
    cases k with
    | write => exact Or.inl ⟨v, racing⟩
    | read => exact Or.inr ⟨v, racing⟩
  · rintro (⟨u, racing⟩ | ⟨u, racing⟩)
    · exact ⟨.write, t, inst, here, .write, u, Or.inl rfl, racing⟩
    · exact ⟨.write, t, inst, here, .read, u, Or.inr rfl, racing⟩

theorem raceDue_read_iff (here : Processed opened unitSize tr .read x n t inst) (call : DbCall) :
    RaceDue order opened unitSize tr n x call ↔ ∃ u i inst',
      Racing order tr (Processed opened unitSize tr .write x) n t u ∧
      Latest (Processed opened unitSize tr .write x) n u i inst' ∧
      call = .createRace ⟨x, u, inst', .write, t, inst, .read⟩ := by
  constructor
  · rintro ⟨l, u, i, processed, k, v, j, inst', conflict, racing, latest, rfl⟩
    obtain ⟨rfl, rfl, rfl⟩ := processed.1.unique here.1
    rcases conflict with rfl | impossible
    · exact ⟨v, j, inst', racing, latest, rfl⟩
    · exact nomatch impossible
  · rintro ⟨u, i, inst', racing, latest, rfl⟩
    exact ⟨.read, t, inst, here, .write, u, i, inst', Or.inl rfl, racing, latest, rfl⟩

theorem raceDue_write_iff (here : Processed opened unitSize tr .write x n t inst) (call : DbCall) :
    RaceDue order opened unitSize tr n x call ↔
      (∃ u i inst', Racing order tr (Processed opened unitSize tr .write x) n t u ∧
        Latest (Processed opened unitSize tr .write x) n u i inst' ∧
        call = .createRace ⟨x, u, inst', .write, t, inst, .write⟩) ∨
      ∃ u i inst', Racing order tr (Processed opened unitSize tr .read x) n t u ∧
        Latest (Processed opened unitSize tr .read x) n u i inst' ∧
        call = .createRace ⟨x, u, inst', .read, t, inst, .write⟩ := by
  constructor
  · rintro ⟨l, u, i, processed, k, v, j, inst', _, racing, latest, rfl⟩
    obtain ⟨rfl, rfl, rfl⟩ := processed.1.unique here.1
    cases k with
    | write => exact Or.inl ⟨v, j, inst', racing, latest, rfl⟩
    | read => exact Or.inr ⟨v, j, inst', racing, latest, rfl⟩
  · rintro (⟨u, i, inst', racing, latest, rfl⟩ | ⟨u, i, inst', racing, latest, rfl⟩)
    · exact ⟨.write, t, inst, here, .write, u, i, inst', Or.inl rfl, racing, latest, rfl⟩
    · exact ⟨.write, t, inst, here, .read, u, i, inst', Or.inr rfl, racing, latest, rfl⟩

/-- Every detector that processes accesses as Djit does is exact for the accesses
that its gate lets through. -/
theorem djit_analyses {alg : Algorithm G DjitMeta} (hooks : HookOrder order)
    (fresh : alg.newMeta = {}) (reads : alg.processRead = Djit.processRead)
    (writes : alg.processWrite = Djit.processWrite) :
    alg.Analyses order opened Own unitSize tr (fun _ _ => True) (DjitInv order opened unitSize tr)
      (RaceDue order opened unitSize tr) (RaceDue order opened unitSize tr) where
  blank epoch x := by
    rw [fresh]
    exact ⟨Shadow.blank, Shadow.blank, by simp⟩
  restamp same inv := ⟨inv.writers.restamp same, inv.readers.restamp same, inv.racy⟩
  skip none inv := inv.skip none
  process {n d epoch k curr inst addr size x} here member entered sync stamp runs _ _ inv := by
    rw [fresh] at inv ⊢
    have started : curr ∈ (progressAt tr (n + 1)).started := by
      rw [progressAt_succ here, Progress.next_hook]
      exact runs.1
    obtain ⟨currVc, found⟩ := sync.present started
    have clock := clockOf_of_vc found curr
    rw [clock] at stamp
    have processed : Processed opened unitSize tr k x n curr inst := ⟨⟨addr, size, here, member⟩, entered⟩
    have alone : ∀ {l t inst'}, Processed opened unitSize tr l x n t inst' → t = curr :=
      fun other => (other.1.unique processed.1).2.1
    have others : ∀ {l}, l ≠ k → ∀ t inst', ¬ Processed opened unitSize tr l x n t inst' :=
      fun apart t inst' other => apart (other.1.unique processed.1).1
    obtain ⟨racedW, callsW, ranW, markedW, reportsW⟩ := inv.writers.check hooks sync here found
      Processed.acting Processed.single (fun t i => ⟨x, t, i, .write, curr, inst, k⟩)
    cases k with
    | read =>
      rw [Algorithm.process, reads, Djit.processRead]
      simp only [found, ranW, Option.bind_eq_bind, Option.bind_some, Option.pure_def]
      refine ⟨_, _, rfl, ⟨inv.writers.skip (others (by simp)), inv.readers.record processed alone stamp, ?_⟩, ?_⟩
      · simp only [Bool.or_eq_true, inv.racy, markedW, exists_lt_succ_iff, racyAt_read_iff processed]
      · refine ⟨fun call made => ?_, fun call due => ?_⟩
        · exact (raceDue_read_iff processed call).mpr ((reportsW call).mp made)
        · exact (reportsW call).mpr ((raceDue_read_iff processed call).mp due)
    | write =>
      obtain ⟨racedR, callsR, ranR, markedR, reportsR⟩ := inv.readers.check hooks sync here found
        Processed.acting Processed.single (fun t i => ⟨x, t, i, .read, curr, inst, .write⟩)
      rw [Algorithm.process, writes, Djit.processWrite]
      simp only [found, ranW, ranR, Option.bind_eq_bind, Option.bind_some, Option.pure_def]
      refine ⟨_, _, rfl, ⟨inv.writers.record processed alone stamp, inv.readers.skip (others (by simp)), ?_⟩, ?_⟩
      · simp only [Bool.or_eq_true, inv.racy, markedW, markedR, exists_lt_succ_iff,
          racyAt_write_iff processed, or_assoc]
      · have all : ∀ call, call ∈ callsW ++ callsR ↔ RaceDue order opened unitSize tr n x call := by
          intro call
          rw [List.mem_append, reportsW, reportsR, raceDue_write_iff processed]
        exact ⟨fun call => (all call).mp, fun call => (all call).mpr⟩

end Djit

section Tracks
variable {G M : Type} {alg : Algorithm G M} {opened : Progress → Bool}

theorem syncOrder_lock (curr : ThreadId) (addr : Address) (c : Channel) :
    (syncOrder.acquires (.afterPthreadMutexLock curr addr) c ↔ c = .thread curr ∨ c = .mutex addr) ∧
    (syncOrder.releases (.afterPthreadMutexLock curr addr) c ↔ c = .thread curr) := by
  simp [syncOrder, Hook.thread]

theorem syncOrder_unlock (curr : ThreadId) (addr : Address) (c : Channel) :
    (syncOrder.acquires (.beforePthreadMutexUnlock curr addr) c ↔ c = .thread curr) ∧
    (syncOrder.releases (.beforePthreadMutexUnlock curr addr) c ↔
      c = .thread curr ∨ c = .mutex addr) := by
  simp [syncOrder, Hook.thread]

/-- Detectors that keep the synchronisation functions of the base class. -/
theorem base_tracks (gate : ∀ {b : DetectorBase G} {p}, b.Counted p → alg.gate b = opened p)
    (lock : alg.processLock = DetectorBase.processLock)
    (unlock : alg.processUnlock = DetectorBase.processUnlock)
    (join : alg.afterPthreadJoin = DetectorBase.afterPthreadJoin) :
    alg.Tracks syncOrder opened (fun _ _ => True) (fun _ => True) where
  hooks := syncOrder_hooks
  gate := gate
  start _ := trivial
  join {tr n b epoch curr child} here admitted sync _ := by
    obtain ⟨b', result, sync', settings, _⟩ := sync.join here admitted
      (syncOrder_hooks.joinAcquires curr child) (syncOrder_hooks.joinReleases curr child)
    exact ⟨b', join ▸ result, sync', settings, trivial⟩
  lock {tr n b epoch curr addr} here admitted sync _ := by
    obtain ⟨b', result, sync', settings, _⟩ := sync.lock here admitted
      (fun c => (syncOrder_lock curr addr c).1) (fun c => (syncOrder_lock curr addr c).2)
    exact ⟨b', lock ▸ result, sync', settings, trivial⟩
  unlock {tr n b epoch curr addr} _ here admitted sync _ := by
    obtain ⟨b', result, sync', settings, _⟩ := sync.unlock here admitted
      (fun c => (syncOrder_unlock curr addr c).1) (fun c => (syncOrder_unlock curr addr c).2)
    exact ⟨b', unlock ▸ result, sync', settings, trivial⟩

end Tracks

section Exact
variable {unitSize : Address} {tr : List Hook} {n : ℕ}

theorem exists_latest {acc : ℕ → ThreadId → InstId → Prop} {i n : ℕ} {t : ThreadId} {inst : InstId}
    (bound : i < n) (access : acc i t inst) : ∃ j inst', Latest acc n t j inst' := by
  induction n with
  | zero => exact absurd bound (Nat.not_lt_zero _)
  | succ n ih =>
    by_cases last : ∃ inst', acc n t inst'
    · obtain ⟨inst', access⟩ := last
      exact ⟨n, inst', Nat.lt_succ_self n, access, fun j below _ _ => Nat.le_of_lt_succ below⟩
    · have none : ∀ inst', ¬ acc n t inst' := fun inst' access => last ⟨inst', access⟩
      rcases Nat.lt_succ_iff_lt_or_eq.mp bound with earlier | rfl
      · obtain ⟨j, inst', latest⟩ := ih earlier
        exact ⟨j, inst', latest.skip none⟩
      · exact absurd access (none inst)

/-- The reports at position `n` name exactly the threads with an unordered
conflicting access, each by its most recent one, and concern the access made there. -/
structure ReportsExactly (order : Causality.Model Hook Channel) (unitSize : Address) (tr : List Hook)
    (n : ℕ) (out : List DbCall) : Prop where
  named_iff : ∀ {l u x inst}, Accesses unitSize tr l x n u inst → ∀ k t,
    (∃ i₀, .createRace ⟨x, t, i₀, k, u, inst, l⟩ ∈ out) ↔
      t ≠ u ∧ Conflict k l ∧ ∃ i < n, ∃ inst', Accesses unitSize tr k x i t inst' ∧ ¬ order.HB tr i n
  latest : ∀ {x t i₀ k u inst l}, .createRace ⟨x, t, i₀, k, u, inst, l⟩ ∈ out →
    Accesses unitSize tr l x n u inst ∧ ∃ i, Latest (Accesses unitSize tr k x) n t i i₀
  races : ∀ call ∈ out, ∃ race, call = .createRace race

@[simp] theorem processed_true (k : RaceEventType) (x : Address) :
    Processed (fun _ => true) unitSize tr k x = Accesses unitSize tr k x := by
  funext i t inst
  simp [Processed]

theorem reportsExactly_of_emits {order : Causality.Model Hook Channel} {out : List DbCall}
    (emits : Emits (fun _ => true) unitSize tr (RaceDue order (fun _ => true) unitSize tr)
      (RaceDue order (fun _ => true) unitSize tr) n out) :
    ReportsExactly order unitSize tr n out := by
  obtain ⟨reported, due⟩ := emits
  simp only [RaceDue, processed_true] at reported due
  refine ⟨?_, ?_, ?_⟩
  · intro l u x inst here k t
    constructor
    · rintro ⟨i₀, member⟩
      obtain ⟨_, _, _, _, _, _, _, _, _, _, _, _, _, conflict, racing, _, same⟩ := reported _ member
      cases same
      exact ⟨racing.1, conflict, racing.2⟩
    · rintro ⟨other, conflict, i, bound, inst', access, unordered⟩
      obtain ⟨j, i₀, latest⟩ := exists_latest bound access
      exact ⟨i₀, due here _ ⟨l, u, inst, here, k, t, j, i₀, conflict,
        ⟨other, i, bound, inst', access, unordered⟩, latest, rfl⟩⟩
  · intro x t i₀ k u inst l member
    obtain ⟨_, _, _, _, _, _, _, _, access, _, _, j, _, _, _, latest, same⟩ := reported _ member
    cases same
    exact ⟨access, j, latest⟩
  · intro call member
    obtain ⟨_, _, _, _, _, _, _, _, _, _, _, _, _, _, _, _, rfl⟩ := reported call member
    exact ⟨_, rfl⟩

/-- Djit runs over every conforming trace without failing an assertion, and its
reports are exact for happens-before. -/
theorem djit_reports_exactly {trackRacyInst : Bool} {filter : RegionFilter}
    (conforms : Conforms unitSize tr) (monitored : Monitored filter tr) :
    ∃ last outs, Detector.run djit { unitSize, trackRacyInst, filter, own := () } tr =
      some (last, outs) ∧ outs.length = tr.length ∧
      ∀ n out, outs[n]? = some out → ReportsExactly syncOrder unitSize tr n out := by
  have tracks : djit.Tracks syncOrder (fun _ => true) (fun _ _ => True) (fun _ => True) :=
    base_tracks (fun _ => rfl) rfl rfl rfl
  obtain ⟨last, outs, ran, length, _, emits⟩ :=
    (djit_analyses syncOrder_hooks rfl rfl rfl).run { unitSize, trackRacyInst, filter, own := () }
      tracks conforms trivial monitored
      ⟨rfl, rfl, rfl, rfl, rfl, rfl⟩ trivial (Runs.along_of_forall (fun _ _ => trivial) _ _)
  exact ⟨last, outs, ran, length, fun n out found => reportsExactly_of_emits (emits n out found)⟩

/-- The child's write races with the one that its parent makes after the fork. -/
def forkTrace : List Hook :=
  [.threadStart 1 invalidThdId, .threadStart 2 1, .beforeMemWrite 1 7 8 4, .beforeMemWrite 2 9 8 4]

theorem djit_reports_exactly_fork : ∃ last outs, Detector.run djit
      { unitSize := 4, filter := RegionFilter.addRegion {} 8 4, own := () } forkTrace =
      some (last, outs) ∧ outs.length = forkTrace.length ∧
      ∀ n out, outs[n]? = some out → ReportsExactly syncOrder 4 forkTrace n out :=
  djit_reports_exactly (by decide) (by decide)

example : (Detector.run djit { unitSize := 4, filter := RegionFilter.addRegion {} 8 4, own := () }
    forkTrace).map (·.2) = some [[], [], [], [.createRace ⟨8, 1, 7, .write, 2, 9, .write⟩]] := by decide

end Exact
end Maple.Race
