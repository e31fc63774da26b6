import Maple.Pintool.Elimination

/-! When the elimination of HistLockPlus loses nothing, in every state that any hooks
lead to. -/
namespace Maple.Pintool
open Race

/-- Counts of releases only grow, and a thread that releases nothing loses no lock. -/
def Advances (own own' : HistLockPlusOwn) : Prop := ∀ t,
  HistLockPlus.releaseCntOf own t ≤ HistLockPlus.releaseCntOf own' t ∧
    (HistLockPlus.releaseCntOf own' t = HistLockPlus.releaseCntOf own t →
      ∀ a ∈ MultiLock.locksetOf own.locksetMap t, a ∈ MultiLock.locksetOf own'.locksetMap t)

theorem histLockPlus_grows : histLockPlus.Grows where
  lock result := by
    cases result
    exact .of_clocks rfl rfl rfl
  unlock result := by
    cases result
    exact .of_clocks rfl rfl rfl
  join result := by
    obtain ⟨joined, taken, result⟩ := Option.bind_eq_some_iff.mp result
    obtain ⟨vc, found, same⟩ := Option.bind_eq_some_iff.mp result
    cases same
    exact ⟨joined, taken, .setVc found (DetectorBase.le_increment vc _)⟩

theorem histLockPlus_advances : histLockPlus.Moves Advances where
  refl own t := ⟨le_rfl, fun _ _ => id⟩
  lock {b curr addr b'} result t := by
    cases result
    refine ⟨le_rfl, fun _ a member => ?_⟩
    simp only [MultiLock.locksetOf, getElem?_insert_thread]
    split
    · next same =>
        subst same
        exact Lockset.mem_add.mpr (Or.inr member)
    · exact member
  unlock {b curr addr b'} result t := by
    cases result
    simp only [HistLockPlus.releaseCntOf, MultiLock.locksetOf, getElem?_insert_thread]
    split
    · next same =>
        subst same
        simp only [Option.getD_some]
        exact ⟨by omega, fun released => by omega⟩
    · exact ⟨le_rfl, fun _ _ => id⟩
  join {b curr child b'} result t := by
    obtain ⟨joined, taken, result⟩ := Option.bind_eq_some_iff.mp result
    obtain ⟨vc, found, same⟩ := Option.bind_eq_some_iff.mp result
    cases same
    obtain ⟨_, _, taken⟩ := Option.bind_eq_some_iff.mp taken
    obtain ⟨_, _, same⟩ := Option.bind_eq_some_iff.mp taken
    cases same
    exact ⟨le_rfl, fun _ _ => id⟩
  call own curr target t := ⟨le_rfl, fun _ _ => id⟩

namespace ElpiHistory
variable {vcs vcs' : OrdMap ThreadId VectorClock} {own own' : HistLockPlusOwn} {h : ElpiHistory} {curr : ThreadId}
  {elpi : Elpi}

theorem Ordered.advance (ordered : h.Ordered vcs own) (known : ∀ t ∈ vcs, t ∈ vcs')
    (advances : ∀ t ∈ vcs, HistLockPlus.releaseCntOf own t ≤ HistLockPlus.releaseCntOf own' t ∧
      (HistLockPlus.releaseCntOf own' t = HistLockPlus.releaseCntOf own t →
        ∀ a ∈ MultiLock.locksetOf own.locksetMap t, a ∈ MultiLock.locksetOf own'.locksetMap t)) :
    h.Ordered vcs' own' := by
  refine ⟨ordered.below, ordered.valid, ordered.sorted, fun it elpi found => known _ (ordered.started it elpi found),
    fun it elpi found => ?_, ordered.growing⟩
  obtain ⟨atMost, locks⟩ := ordered.counted it elpi found
  obtain ⟨counts, kept⟩ := advances _ (ordered.started it elpi found)
  refine ⟨atMost.trans counts, fun same a member => ?_⟩
  have still : HistLockPlus.releaseCntOf own' elpi.epoch.tid = HistLockPlus.releaseCntOf own elpi.epoch.tid :=
    le_antisymm (same ▸ atMost) counts
  exact kept still a (locks (same.trans still) a member)

theorem Ordered.append (ordered : h.Ordered vcs own) (started : curr ∈ vcs) (tid : elpi.epoch.tid = curr)
    (count : elpi.releaseCnt = HistLockPlus.releaseCntOf own curr)
    (locks : elpi.lockset = MultiLock.locksetOf own.locksetMap curr) : (h.append curr elpi).Ordered vcs own := by
  have derefs : ∀ it elpi', (h.append curr elpi).elpiList.deref it = some elpi' →
      it = h.elpiList.inserted ∧ elpi' = elpi ∨ h.elpiList.deref it = some elpi' := by
    intro it elpi' found
    rw [ElpiHistory.append, ElpiList.deref_pushBack] at found
    split at found
    · next same => exact Or.inl ⟨same.symm, (Option.some.inj found).symm⟩
    · exact Or.inr found
  have kept : ∀ it elpi', h.elpiList.deref it = some elpi' → (h.append curr elpi).elpiList.deref it = some elpi' := by
    intro it elpi' found
    rw [ElpiHistory.append, ElpiList.deref_pushBack, if_neg (ordered.below it elpi' found).ne', found]
  have sites : ∀ t, ((h.append curr elpi).callsite t).2 =
      if curr = t then (h.callsite t).2 ++ [h.elpiList.inserted] else (h.callsite t).2 := by
    intro t
    simp only [ElpiHistory.callsite, ElpiHistory.append, getElem?_insert_thread]
    split
    · next same =>
        subst same
        rfl
    · rfl
  constructor
  case below =>
    intro it elpi' found
    change it < h.elpiList.inserted + 1
    rcases derefs it elpi' found with ⟨rfl, _⟩ | found
    · exact Nat.lt_succ_self _
    · exact Nat.lt_succ_of_lt (ordered.below it elpi' found)
  case valid =>
    intro t it member
    rw [sites] at member
    split at member
    · next same =>
        rcases List.mem_append.mp member with old | new
        · obtain ⟨elpi', found, own⟩ := ordered.valid t it old
          exact ⟨elpi', kept it elpi' found, own⟩
        · cases List.mem_singleton.mp new
          refine ⟨elpi, ?_, tid.trans same⟩
          rw [ElpiHistory.append, ElpiList.deref_pushBack, if_pos rfl]
    · obtain ⟨elpi', found, own⟩ := ordered.valid t it member
      exact ⟨elpi', kept it elpi' found, own⟩
  case sorted =>
    intro t
    rw [sites]
    split
    · refine List.pairwise_append.mpr ⟨ordered.sorted t, List.pairwise_singleton _ _, fun it member it' new => ?_⟩
      obtain ⟨elpi', found, _⟩ := ordered.valid t it member
      rw [List.mem_singleton.mp new]
      exact ordered.below it elpi' found
    · exact ordered.sorted t
  case started =>
    intro it elpi' found
    rcases derefs it elpi' found with ⟨_, rfl⟩ | found
    · exact tid ▸ started
    · exact ordered.started it elpi' found
  case counted =>
    intro it elpi' found
    rcases derefs it elpi' found with ⟨_, rfl⟩ | found
    · rw [tid, count, locks]
      exact ⟨le_rfl, fun _ _ => id⟩
    · exact ordered.counted it elpi' found
  case growing =>
    intro it it' r s before found found' tids counts
    rcases derefs it r found with ⟨rfl, rfl⟩ | old
    · rcases derefs it' s found' with ⟨rfl, rfl⟩ | old'
      · exact absurd before (lt_irrefl _)
      · exact absurd (before.trans (ordered.below it' s old')) (lt_irrefl _)
    · rcases derefs it' s found' with ⟨rfl, rfl⟩ | old'
      · intro a member
        have mine : r.epoch.tid = curr := tids.trans tid
        rw [locks, ← mine]
        exact (ordered.counted it r old).2 (by rw [counts, count, mine]) a member
      · exact ordered.growing it it' r s before old old' tids counts

end ElpiHistory

/-- The history that the accesses of one kind are recorded in. -/
def HistLockPlusMeta.history (m : HistLockPlusMeta) : RaceEventType → ElpiHistory
  | .read => m.reader
  | .write => m.writer

/-- The access passes the tests for a repeated epoch, and the call site has changed. -/
def HistLockPlusMeta.Eliminates (m : HistLockPlusMeta) (b : DetectorBase HistLockPlusOwn) (k : RaceEventType)
    (curr : ThreadId) : Prop :=
  (∃ currVc, b.currVcMap[curr]? = some currVc ∧
    m.writer.lastIs currVc (HistLockPlus.releaseCntOf b.own curr) = false ∧
    (k = .read → m.reader.lastIs currVc (HistLockPlus.releaseCntOf b.own curr) = false)) ∧
  ((m.history k).callsite curr).1 ≠ b.own.callsiteMap[curr]?.getD 0

section
variable {b : DetectorBase HistLockPlusOwn} {m next : HistLockPlusMeta} {k : RaceEventType} {curr : ThreadId}
  {x : Address} {inst : InstId} {calls : List DbCall}

/-- An access is skipped, or eliminates records of its kind and appends one. -/
theorem processed_spec (processed : histLockPlus.process k b curr x m inst = some (next, calls)) :
    next = m ∧ ¬ m.Eliminates b k curr ∨
      ∃ currVc middle, b.currVcMap[curr]? = some currVc ∧
        (m.history k).eliminate curr (b.own.callsiteMap[curr]?.getD 0) = some middle ∧
        next.history k = middle.append curr (HistLockPlus.record b.own curr currVc inst) ∧
        ∀ l, l ≠ k → next.history l = m.history l := by
  cases k with
  | read =>
    obtain ⟨currVc, found, processed⟩ := Option.bind_eq_some_iff.mp processed
    dsimp only at processed
    split at processed
    · next skipped =>
        cases processed
        refine Or.inl ⟨rfl, fun ⟨⟨vc, found', _, fresh⟩, _⟩ => ?_⟩
        cases found.symm.trans found'
        exact nomatch skipped.symm.trans (fresh rfl)
    split at processed
    · next skipped =>
        cases processed
        refine Or.inl ⟨rfl, fun ⟨⟨vc, found', fresh, _⟩, _⟩ => ?_⟩
        cases found.symm.trans found'
        exact nomatch skipped.symm.trans fresh
    · obtain ⟨_, _, processed⟩ := Option.bind_eq_some_iff.mp processed
      obtain ⟨middle, eliminated, processed⟩ := Option.bind_eq_some_iff.mp processed
      cases processed
      refine Or.inr ⟨currVc, middle, found, eliminated, rfl, fun l other => ?_⟩
      cases l with
      | read => exact absurd rfl other
      | write => rfl
  | write =>
    obtain ⟨currVc, found, processed⟩ := Option.bind_eq_some_iff.mp processed
    dsimp only at processed
    split at processed
    · next skipped =>
        cases processed
        refine Or.inl ⟨rfl, fun ⟨⟨vc, found', fresh, _⟩, _⟩ => ?_⟩
        cases found.symm.trans found'
        exact nomatch skipped.symm.trans fresh
    · obtain ⟨_, _, processed⟩ := Option.bind_eq_some_iff.mp processed
      obtain ⟨_, _, processed⟩ := Option.bind_eq_some_iff.mp processed
      obtain ⟨middle, eliminated, processed⟩ := Option.bind_eq_some_iff.mp processed
      cases processed
      refine Or.inr ⟨currVc, middle, found, eliminated, rfl, fun l other => ?_⟩
      cases l with
      | read => rfl
      | write => exact absurd rfl other

/-- One access keeps the order of the records; if it eliminates, it loses nothing exactly
if the call site is spared. -/
theorem ordered_process (ordered : ∀ l, (m.history l).Ordered b.currVcMap b.own)
    (processed : histLockPlus.process k b curr x m inst = some (next, calls)) :
    (∀ l, (next.history l).Ordered b.currVcMap b.own) ∧ (m.Eliminates b k curr →
      ((m.history k).elpiList.NothingLost (next.history k).elpiList ↔ (m.history k).Spared curr)) := by
  rcases processed_spec processed with ⟨rfl, skipped⟩ | ⟨currVc, middle, found, eliminated, appended, others⟩
  · exact ⟨ordered, fun eliminates => absurd eliminates skipped⟩
  have started : curr ∈ b.currVcMap := Std.ExtTreeMap.mem_iff_isSome_getElem?.mpr (by rw [found]; rfl)
  have keep : middle.Ordered b.currVcMap b.own → ∀ l, (next.history l).Ordered b.currVcMap b.own := by
    intro kept l
    by_cases same : l = k
    · subst same
      rw [appended]
      exact kept.append started rfl rfl rfl
    · rw [others l same]
      exact ordered l
  by_cases changed : ((m.history k).callsite curr).1 ≠ b.own.callsiteMap[curr]?.getD 0
  · obtain ⟨middle', eliminated', kept, inserted, exact_⟩ := (ordered k).eliminate changed
    cases eliminated.symm.trans eliminated'
    refine ⟨keep kept, fun _ => Iff.trans ?_ exact_⟩
    -- The appended record is new, so it neither replaces nor restores one.
    have same : ∀ it r, (m.history k).elpiList.deref it = some r →
        (next.history k).elpiList.deref it = middle.elpiList.deref it := by
      intro it r found'
      have below := (ordered k).below it r found'
      rw [appended, ElpiHistory.append, ElpiList.deref_pushBack, if_neg (inserted ▸ below.ne')]
    constructor
    · intro nothingLost it r found' removed
      obtain ⟨it', s, foundS, stays, covers⟩ := nothingLost it r found' ((same it r found').trans removed)
      exact ⟨it', s, foundS, (same it' s foundS).symm.trans stays, covers⟩
    · intro nothingLost it r found' removed
      obtain ⟨it', s, foundS, stays, covers⟩ := nothingLost it r found' ((same it r found').symm.trans removed)
      exact ⟨it', s, foundS, (same it' s foundS).trans stays, covers⟩
  · have unchanged : m.history k = middle := by
      rw [ElpiHistory.eliminate, if_neg changed] at eliminated
      exact Option.some.inj eliminated
    exact ⟨keep (unchanged ▸ ordered k), fun eliminates => absurd eliminates.2 changed⟩

end

namespace HistLockPlus

/-- One hook, whatever it reports. -/
def next (d : Detector HistLockPlusOwn HistLockPlusMeta) (e : Hook) : Option (Detector HistLockPlusOwn HistLockPlusMeta) :=
  (step d e).map Prod.fst

/-- A thread starts once. -/
def Allows (d : Detector HistLockPlusOwn HistLockPlusMeta) : Hook → Prop
  | .threadStart curr _ => curr ∉ d.currVcMap
  | _ => True

instance (d : Detector HistLockPlusOwn HistLockPlusMeta) (e : Hook) : Decidable (Allows d e) := by
  induction e using Hook.casesOn <;> simp only [Allows] <;> infer_instance

def Initial (d : Detector HistLockPlusOwn HistLockPlusMeta) : Prop :=
  ∃ unitSize trackRacyInst filter, d = Pintool.start _ unitSize trackRacyInst filter {}

def Inv (d : Detector HistLockPlusOwn HistLockPlusMeta) : Prop :=
  ∀ x k, ((metaAt d {} x).history k).Ordered d.currVcMap d.own

variable {d d' : Detector HistLockPlusOwn HistLockPlusMeta} {e : Hook} {out : List DbCall}

theorem blank_ordered (vcs : OrdMap ThreadId VectorClock) (own : HistLockPlusOwn) (k : RaceEventType) :
    (({} : HistLockPlusMeta).history k).Ordered vcs own := by
  have nothing : ∀ it elpi, (({} : HistLockPlusMeta).history k).elpiList.deref it ≠ some elpi := by
    cases k <;> simp [HistLockPlusMeta.history, ElpiList.deref]
  have nowhere : ∀ t, ((({} : HistLockPlusMeta).history k).callsite t).2 = [] := by
    cases k <;> simp [HistLockPlusMeta.history, ElpiHistory.callsite]
  constructor
  case below => exact fun it elpi found => absurd found (nothing it elpi)
  case valid => exact fun t it member => by simp [nowhere] at member
  case sorted => exact fun t => by simp [nowhere]
  case started => exact fun it elpi found => absurd found (nothing it elpi)
  case counted => exact fun it elpi found => absurd found (nothing it elpi)
  case growing => exact fun it _ elpi _ _ found => absurd found (nothing it elpi)

theorem Inv.access {k : RaceEventType} {curr : ThreadId} {inst : InstId} {addr size : Address} (inv : Inv d)
    (stepped : d.step histLockPlus (k.hook curr inst addr size) = some (d', out)) : Inv d' := by
  have base : d'.toDetectorBase = d.toDetectorBase := by
    rw [step_hook, Detector.beforeMem] at stepped
    split at stepped
    · obtain ⟨_, _, same⟩ := Option.bind_eq_some_iff.mp stepped
      cases same
      rfl
    · cases stepped
      rfl
  intro x
  rw [base]
  rcases Detector.step_unit stepped x with same | ⟨_, v, calls, processed, entry, _⟩
  · rw [metaAt, same]
    exact inv x
  · rw [metaAt, entry]
    exact (ordered_process (inv x) processed).1

theorem Inv.free (inv : Inv d) (addr : Address) : Inv (d.freeAddrRegion histLockPlus addr).1 := by
  unfold Detector.freeAddrRegion
  split
  · exact inv
  · intro x k
    simp only [metaAt, (freeLoop_spec _ _ _).1]
    split
    · exact blank_ordered _ _ k
    · exact inv x k

/-- Hooks that touch no unit. -/
theorem Inv.silent {b : DetectorBase HistLockPlusOwn} (inv : Inv d) (known : ∀ t ∈ d.currVcMap, t ∈ b.currVcMap)
    (advances : ∀ t ∈ d.currVcMap, releaseCntOf d.own t ≤ releaseCntOf b.own t ∧
      (releaseCntOf b.own t = releaseCntOf d.own t →
        ∀ a ∈ MultiLock.locksetOf d.own.locksetMap t, a ∈ MultiLock.locksetOf b.own.locksetMap t)) :
    Inv (d.onBase b) := fun x k => (inv x k).advance known advances

theorem Inv.step (inv : Inv d) (allowed : Allows d e) (stepped : HistLockPlus.step d e = some (d', out)) : Inv d' := by
  have silent : d.silent (d.toDetectorBase.onHook histLockPlus e) = some (d', out) → Inv d' := by
    intro stepped
    obtain ⟨b, result, same⟩ := Option.map_eq_some_iff.mp stepped
    cases same
    exact inv.silent (fun t => histLockPlus_grows.mem result)
      fun t _ => histLockPlus_advances.onHook result t
  cases e with
  | threadStart curr parent =>
    obtain ⟨b, result, same⟩ := Option.map_eq_some_iff.mp stepped
    cases same
    obtain ⟨started, ran, same⟩ := Option.bind_eq_some_iff.mp result
    cases same
    have stay : ∀ t ∈ d.currVcMap, t ∈ started.currVcMap := fun t known => threadStart_mem ran known
    refine inv.silent stay fun t known => ?_
    have other : curr ≠ t := by
      rintro rfl
      exact allowed known
    simp only [releaseCntOf, threadStart_own ran, getElem?_insert_thread, if_neg other]
    exact ⟨le_rfl, fun _ _ => id⟩
  | beforeMemRead curr inst addr size => exact inv.access (k := .read) stepped
  | beforeMemWrite curr inst addr size => exact inv.access (k := .write) stepped
  | beforeRealloc addr | beforeFree addr =>
    have freed : (d.freeAddrRegion histLockPlus addr).1 = d' := congrArg Prod.fst (Option.some.inj stepped)
    exact freed ▸ inv.free addr
  | imageUnload lowAddr dataStart bssStart =>
    obtain ⟨_, _, same⟩ := Option.bind_eq_some_iff.mp stepped
    cases same
    exact (inv.free dataStart).free bssStart
  | _ => exact silent stepped

theorem inv_of_reach (reached : Runs.Reach Initial Allows next d) : Inv d := by
  apply reached.invariant Inv
  · rintro _ ⟨unitSize, trackRacyInst, filter, rfl⟩ x k
    exact blank_ordered _ _ k
  · intro d e d' inv allowed stepped
    obtain ⟨⟨_, out⟩, ran, rfl⟩ := Option.map_eq_some_iff.mp stepped
    exact inv.step allowed ran

/-- In every reachable state, an access that eliminates records of the old call site
loses nothing exactly if the call site is spared, and then no race with a removed record. -/
theorem elimination_keeps_iff (reached : Runs.Reach Initial Allows next d) {k : RaceEventType} {curr : ThreadId}
    {x : Address} {inst : InstId} {m : HistLockPlusMeta} {calls : List DbCall}
    (eliminates : (metaAt d {} x).Eliminates d.toDetectorBase k curr)
    (processed : histLockPlus.process k d.toDetectorBase curr x (metaAt d {} x) inst = some (m, calls)) :
    (((metaAt d {} x).history k).elpiList.NothingLost (m.history k).elpiList ↔
      ((metaAt d {} x).history k).Spared curr) ∧
    (((metaAt d {} x).history k).Spared curr →
      ((metaAt d {} x).history k).elpiList.StillRaces (m.history k).elpiList) := by
  have exact_ := (ordered_process (inv_of_reach reached x) processed).2 eliminates
  exact ⟨exact_, fun spared => (exact_.mpr spared).stillRaces⟩

/-- Thread 1 reads with and without a mutex from one call site, then takes the mutex at
another one. -/
def leaving : List Hook :=
  [.threadStart 1 invalidThdId, .threadStart 2 1, .beforeCall 1 64, .afterPthreadMutexLock 1 16, .beforeMemRead 1 7 8 4,
    .beforePthreadMutexUnlock 1 16, .beforeMemRead 1 7 8 4, .beforeCall 1 128, .afterPthreadMutexLock 1 16,
    .beforePthreadMutexUnlock 1 16, .afterPthreadMutexLock 1 16]

def monitoring : Detector HistLockPlusOwn HistLockPlusMeta := Pintool.start _ 4 false (.addRegion {} 8 4) {}

theorem initial_monitoring : Initial monitoring := ⟨4, false, .addRegion {} 8 4, rfl⟩

/-- The tests behind `Eliminates`, and what the access makes of the records. -/
def eliminating (k : RaceEventType) (curr : ThreadId) (x : Address) (inst : InstId)
    (test : HistLockPlusMeta → HistLockPlusMeta → Bool) (d : Detector HistLockPlusOwn HistLockPlusMeta) : Bool :=
  (d.currVcMap[curr]?.any fun currVc =>
    !(metaAt d {} x).writer.lastIs currVc (releaseCntOf d.own curr) &&
      !(metaAt d {} x).reader.lastIs currVc (releaseCntOf d.own curr)) &&
  (((metaAt d {} x).history k).callsite curr).1 ≠ d.own.callsiteMap[curr]?.getD 0 &&
  (histLockPlus.process k d.toDetectorBase curr x (metaAt d {} x) inst).any fun got => test (metaAt d {} x) got.1

theorem of_eliminating {k : RaceEventType} {curr : ThreadId} {x : Address} {inst : InstId}
    {test : HistLockPlusMeta → HistLockPlusMeta → Bool} (passed : eliminating k curr x inst test d = true) :
    (metaAt d {} x).Eliminates d.toDetectorBase k curr ∧ ∃ m calls,
      histLockPlus.process k d.toDetectorBase curr x (metaAt d {} x) inst = some (m, calls) ∧
      test (metaAt d {} x) m = true := by
  simp only [eliminating, Bool.and_eq_true, decide_eq_true_eq, Option.any_eq_true, Bool.not_eq_true'] at passed
  obtain ⟨⟨⟨currVc, found, writer, reader⟩, changed⟩, ⟨m, calls⟩, processed, tested⟩ := passed
  exact ⟨⟨⟨currVc, found, writer, fun _ => reader⟩, changed⟩, m, calls, processed, tested⟩

/-- Some record is gone, and none that is left covers it. -/
def lost (before after : ElpiList) : Bool := before.nodes.toList.any fun gone =>
  (after.deref gone.1).isNone && before.nodes.toList.all fun left =>
    (after.deref left.1).isNone || !(left.2.epoch = gone.2.epoch && left.2.lockset.isSubsetOf gone.2.lockset)

theorem not_nothingLost {before after : ElpiList} (gone : lost before after = true) : ¬ before.NothingLost after := by
  intro nothingLost
  obtain ⟨⟨it, r⟩, member, gone⟩ := List.any_eq_true.mp gone
  simp only [Bool.and_eq_true, Option.isNone_iff_eq_none, List.all_eq_true] at gone
  obtain ⟨removed, uncovered⟩ := gone
  obtain ⟨it', s, found, stays, epochs, locks⟩ :=
    nothingLost it r (Std.ExtTreeMap.mem_toList_iff_getElem?_eq_some.mp member) removed
  have fails := uncovered (it', s) (Std.ExtTreeMap.mem_toList_iff_getElem?_eq_some.mpr found)
  simp [stays, epochs, locks] at fails

/-- The read without the mutex is removed, the read with it stays. -/
theorem elimination_loses : ∃ d m calls, Runs.Reach Initial Allows next d ∧
    (metaAt d {} 8).Eliminates d.toDetectorBase .read 1 ∧
    histLockPlus.process .read d.toDetectorBase 1 8 (metaAt d {} 8) 9 = some (m, calls) ∧
    ¬ ((metaAt d {} 8).history .read).elpiList.NothingLost (m.history .read).elpiList := by
  have loses : (Runs.follow Allows next monitoring leaving).any
      (eliminating .read 1 8 9 fun before after => lost before.reader.elpiList after.reader.elpiList) = true := by
    decide +kernel
  obtain ⟨d, reached, passed⟩ := Runs.Reach.of_follow initial_monitoring leaving loses
  obtain ⟨eliminates, m, calls, processed, gone⟩ := of_eliminating passed
  exact ⟨d, m, calls, reached, eliminates, processed, not_nothingLost gone⟩

/-- The read without the mutex has been made at an earlier call site, too. -/
def returning : List Hook :=
  [.threadStart 1 invalidThdId, .threadStart 2 1, .beforeCall 1 32, .beforeMemRead 1 7 8 4, .afterPthreadMutexLock 1 16,
    .beforePthreadMutexUnlock 1 16, .beforeCall 1 64, .afterPthreadMutexLock 1 16, .beforeMemRead 1 7 8 4,
    .beforePthreadMutexUnlock 1 16, .beforeMemRead 1 7 8 4, .beforeCall 1 128, .afterPthreadMutexLock 1 16,
    .beforePthreadMutexUnlock 1 16, .afterPthreadMutexLock 1 16]

/-- Every record of the call site is covered by one of another call site. -/
def covered (h : ElpiHistory) (curr : ThreadId) : Bool := (h.callsite curr).2.all fun it =>
  (h.elpiList.deref it).all fun r => h.elpiList.nodes.toList.any fun left =>
    left.1 ∉ (h.callsite curr).2 && left.2.epoch = r.epoch && left.2.lockset.isSubsetOf r.lockset

theorem spared_of_covered {h : ElpiHistory} {curr : ThreadId} (covered : covered h curr = true) : h.Spared curr := by
  intro it member r found _
  have of_site := List.all_eq_true.mp covered it member
  rw [found, Option.all_some] at of_site
  obtain ⟨⟨it', s⟩, stored, covers⟩ := List.any_eq_true.mp of_site
  simp only [Bool.and_eq_true, decide_eq_true_eq] at covers
  exact ⟨it', s, Std.ExtTreeMap.mem_toList_iff_getElem?_eq_some.mp stored, ⟨covers.1.2, covers.2⟩, Or.inl covers.1.1⟩

/-- One of the two records of the call site is removed, and the record of the earlier call site covers it. -/
theorem elimination_keeps_iff_covered : ∃ (d : Detector HistLockPlusOwn HistLockPlusMeta) (m : HistLockPlusMeta)
    (it : ℕ) (r : Elpi), (((metaAt d {} 8).history .read).callsite 1).2.length = 2 ∧
    ((metaAt d {} 8).history .read).elpiList.deref it = some r ∧ (m.history .read).elpiList.deref it = none ∧
    ((metaAt d {} 8).history .read).elpiList.NothingLost (m.history .read).elpiList ∧
    ((metaAt d {} 8).history .read).elpiList.StillRaces (m.history .read).elpiList := by
  have test : (Runs.follow Allows next monitoring returning).any (eliminating .read 1 8 9 fun before after =>
      (before.reader.callsite 1).2.length = 2 && covered before.reader 1 &&
        before.reader.elpiList.nodes.toList.any fun gone => (after.reader.elpiList.deref gone.1).isNone) = true := by
    decide +kernel
  obtain ⟨d, reached, passed⟩ := Runs.Reach.of_follow initial_monitoring returning test
  obtain ⟨eliminates, m, calls, processed, passed⟩ := of_eliminating passed
  simp only [Bool.and_eq_true, decide_eq_true_eq] at passed
  obtain ⟨⟨two, covered⟩, removed⟩ := passed
  obtain ⟨⟨it, r⟩, member, gone⟩ := List.any_eq_true.mp removed
  have spared : ((metaAt d {} 8).history .read).Spared 1 := spared_of_covered covered
  have keeps := elimination_keeps_iff reached eliminates processed
  exact ⟨d, m, it, r, two, Std.ExtTreeMap.mem_toList_iff_getElem?_eq_some.mp member, Option.isNone_iff_eq_none.mp gone,
    keeps.1.mpr spared, keeps.2 spared⟩

end HistLockPlus
end Maple.Pintool
