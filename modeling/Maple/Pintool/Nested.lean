import Maple.Pintool.FastTrackSound
import Maple.Pintool.HybridSound
import Maple.Pintool.MultiLockExact

/-! How the detectors compare on one trace. A pair that happens-before leaves unordered has
no common mutex, for an unlock and a later lock of it would order the pair; so a race that
Djit finds is a hybrid race as well. -/
namespace Maple.Pintool
open Race

section Order
variable {unitSize : Address} {tr : List Hook} {i j n : ℕ} {t u : ThreadId} {a x : Address}
  {k l : RaceEventType} {inst inst' : InstId}

theorem withCalls (conforms : Conforms unitSize tr) : ConformsWithCalls unitSize tr := by
  refine ⟨fun n e here => ?_, conforms.aligned⟩
  have admitted := conforms.admitted n e here
  cases e with
  | beforeCall curr target => exact admitted.elim
  | _ => exact admitted

/-- Fork and join order is part of happens-before. -/
theorem hb_of_forkJoin (ordered : forkJoinOrder.HB tr i j) : syncOrder.HB tr i j := by
  refine Relation.TransGen.mono ?_ i j ordered
  rintro i j ⟨bound, d, e, c, first, second, released, acquired⟩
  exact ⟨bound, d, e, c, first, second, released.1, acquired.1⟩

theorem holder_next {p : Progress} {e : Hook} (kept : ∀ t, e ≠ .afterPthreadMutexLock t a)
    (left : ∀ t, e ≠ .beforePthreadMutexUnlock t a) : (p.next e).holder[a]? = p.holder[a]? := by
  cases e with
  | afterPthreadMutexLock curr addr =>
    have other : addr ≠ a := by
      rintro rfl
      exact kept curr rfl
    simp [Progress.next, other]
  | beforePthreadMutexUnlock curr addr =>
    have other : addr ≠ a := by
      rintro rfl
      exact left curr rfl
    simp [Progress.next, Progress.holder_unlock, other]
  | _ => rfl

/-- A mutex that is held has been locked, and not been released since. -/
theorem locked_since (conforms : Conforms unitSize tr) (bound : j ≤ tr.length) (held : Held tr j u a) :
    ∃ l < j, tr[l]? = some (.afterPthreadMutexLock u a) ∧ (progressAt tr l).holder[a]? = none ∧
      ∀ m, l < m → m ≤ j → Held tr m u a := by
  induction j with
  | zero => simp [Held, progressAt] at held
  | succ j ih =>
    have here := List.getElem?_eq_getElem (Nat.lt_of_succ_le bound)
    generalize tr[j] = e at here
    have before (same : (progressAt tr (j + 1)).holder[a]? = (progressAt tr j).holder[a]?) :
        ∃ l < j + 1, tr[l]? = some (.afterPthreadMutexLock u a) ∧ (progressAt tr l).holder[a]? = none ∧
          ∀ m, l < m → m ≤ j + 1 → Held tr m u a := by
      obtain ⟨l, earlier, locked, free, since⟩ := ih (Nat.le_of_succ_le bound) (same.symm.trans held)
      refine ⟨l, Nat.lt_succ_of_lt earlier, locked, free, fun m after upto => ?_⟩
      rcases Nat.le_succ_iff.mp upto with upto | rfl
      · exact since m after upto
      · exact held
    by_cases locks : ∃ t, e = .afterPthreadMutexLock t a
    · obtain ⟨t, rfl⟩ := locks
      have now := held
      rw [Held, progressAt_succ here] at now
      have owner : t = u := by simpa [Progress.next] using now
      rcases (conforms.admitted j _ here).2 with free | relocked
      · refine ⟨j, Nat.lt_succ_self j, owner ▸ here, free, fun m after upto => ?_⟩
        rw [Nat.le_antisymm upto after]
        exact held
      · exact before (held.trans (owner ▸ relocked).symm)
    · by_cases unlocks : ∃ t, e = .beforePthreadMutexUnlock t a
      · obtain ⟨t, rfl⟩ := unlocks
        have now := held
        rw [Held, progressAt_succ here, Progress.next, Progress.holder_unlock] at now
        split at now
        · contradiction
        · exact before (held.trans now.symm)
      · apply before
        rw [progressAt_succ here]
        exact holder_next (fun t same => locks ⟨t, same⟩) fun t same => unlocks ⟨t, same⟩

/-- A mutex that a thread no longer holds has been released by it. -/
theorem unlocked_between (conforms : Conforms unitSize tr) (bound : n ≤ tr.length) (held : Held tr i t a)
    (later : i ≤ n) (free : ¬ Held tr n t a) :
    ∃ m, i ≤ m ∧ m < n ∧ tr[m]? = some (.beforePthreadMutexUnlock t a) := by
  induction n, later using Nat.le_induction with
  | base => exact absurd held free
  | succ n later ih =>
    have here := List.getElem?_eq_getElem (Nat.lt_of_succ_le bound)
    generalize tr[n] = e at here
    by_cases gone : Held tr n t a
    · by_cases unlocks : e = .beforePthreadMutexUnlock t a
      · exact ⟨n, later, Nat.lt_succ_self n, unlocks ▸ here⟩
      · -- nobody else may lock it or release it
        have admitted := conforms.admitted n e here
        refine absurd ?_ free
        rw [Held, progressAt_succ here]
        by_cases locks : e = .afterPthreadMutexLock t a
        · simp [locks, Progress.next]
        refine (holder_next ?_ ?_).trans gone
        · rintro v rfl
          rcases admitted.2 with none | own
          · exact absurd (none.symm.trans gone) (by simp)
          · exact locks (by rw [Option.some.inj (own.symm.trans gone)])
        · rintro v rfl
          exact unlocks (by rw [Option.some.inj (admitted.2.symm.trans gone)])
    · obtain ⟨m, from_, before, unlocked⟩ := ih (Nat.le_of_succ_le bound) gone
      exact ⟨m, from_, Nat.lt_succ_of_lt before, unlocked⟩

/-- Two threads that hold one mutex are ordered by its release in between. -/
theorem hb_of_held (conforms : Conforms unitSize tr) (first : Accesses unitSize tr k x i t inst)
    (second : Accesses unitSize tr l x j u inst') (before : i < j) (apart : t ≠ u) (held : Held tr i t a)
    (also : Held tr j u a) : syncOrder.HB tr i j := by
  obtain ⟨m, earlier, locked, free, since⟩ := locked_since conforms second.bound.le also
  have after : i ≤ m := by
    by_contra beyond
    have both := since i (Nat.lt_of_not_le beyond) before.le
    exact apart (Option.some.inj (held.symm.trans both))
  have bound := (List.getElem?_eq_some_iff.mp locked).1
  obtain ⟨o, from_, upto, unlocked⟩ := unlocked_between conforms bound.le held after
    (by simp [Held, free])
  obtain ⟨_, _, there, _⟩ := first
  obtain ⟨_, _, here, _⟩ := second
  have strict : i < o := by
    refine lt_of_le_of_ne from_ ?_
    rintro rfl
    cases k <;> cases there.symm.trans unlocked
  have released : syncOrder.HB tr i o :=
    syncOrder_hooks.hb_of_thread there unlocked (thread_hook ..) rfl strict
  have passed : syncOrder.HB tr o m := .single ⟨upto, _, _, .mutex a, unlocked, locked,
    Or.inr ⟨t, a, rfl, rfl⟩, Or.inr (Or.inr (Or.inr ⟨u, a, rfl, rfl⟩))⟩
  exact (released.trans passed).trans
    (syncOrder_hooks.hb_of_thread locked here rfl (thread_hook ..) earlier)

/-- An unordered conflicting pair is a hybrid race. -/
theorem hybrid_of_unordered (conforms : Conforms unitSize tr) (first : Accesses unitSize tr k x i t inst)
    (second : Accesses unitSize tr l x j u inst') (before : i < j) (apart : t ≠ u) (conflict : Conflict k l)
    (unordered : ¬ syncOrder.HB tr i j) : Hybrid (fun k => Accesses unitSize tr k x) tr i j :=
  ⟨k, l, t, u, inst, inst', first, second, apart, conflict, fun ordered => unordered (hb_of_forkJoin ordered),
    fun ordered => absurd (Causality.hb_lt ordered) (Nat.not_lt.mpr before.le),
    fun _ held also => unordered (hb_of_held conforms first second before apart held also)⟩

theorem hybrid_of_racyAt (conforms : Conforms unitSize tr) {opened : Progress → Bool}
    (racy : RacyAt syncOrder opened unitSize tr x j) :
    ∃ i < j, Hybrid (fun k => Accesses unitSize tr k x) tr i j := by
  obtain ⟨l, u, inst', ⟨second, _⟩, k, t, conflict, apart, i, before, inst, ⟨first, _⟩, unordered⟩ := racy
  exact ⟨i, before, hybrid_of_unordered conforms first second before apart conflict unordered⟩

/-- A report of FastTrack is of a pair that Djit looks at. -/
theorem racyAt_of_genuine (tree : ThreadTree tr) {r : RaceReport} (genuine : Genuine unitSize tr (Unordered tr) n r) :
    RacyAt syncOrder gateOpen unitSize tr r.addr n := by
  obtain ⟨i, before, first, unordered⟩ := genuine.earlier
  have ⟨_, _, there, _⟩ := first
  have ⟨_, _, here, _⟩ := genuine.access
  have ahead : ¬ forkJoinOrder.HB tr i n := fun ordered => unordered (hb_of_forkJoin ordered)
  have behind : ¬ forkJoinOrder.HB tr n i := fun ordered =>
    absurd (Causality.hb_lt ordered) (Nat.not_lt.mpr before.le)
  have openFirst : gateOpen (progressAt tr i) = true := by
    by_contra closed
    rw [Bool.not_eq_true] at closed
    exact (tree.ordered_of_closed there closed here (thread_hook ..) genuine.other.symm).elim ahead behind
  have openSecond : gateOpen (progressAt tr n) = true := by
    by_contra closed
    rw [Bool.not_eq_true] at closed
    exact (tree.ordered_of_closed here closed there (thread_hook ..) genuine.other).elim behind ahead
  exact ⟨r.p1, r.t1, r.i1, ⟨genuine.access, openSecond⟩, r.p0, r.t0, genuine.conflict, genuine.other, i, before,
    r.i0, ⟨first, openFirst⟩, unordered⟩

theorem hybrid_of_apart {r : RaceReport} (genuine : Genuine unitSize tr (LocksApart tr) n r) :
    ∃ i < n, Hybrid (fun k => Accesses unitSize tr k r.addr) tr i n := by
  obtain ⟨i, before, first, unordered, apart⟩ := genuine.earlier
  exact ⟨i, before, r.p0, r.p1, r.t0, r.t1, r.i0, r.i1, first, genuine.access, genuine.other, genuine.conflict,
    unordered, fun ordered => absurd (Causality.hb_lt ordered) (Nat.not_lt.mpr before.le), apart⟩

end Order

section Runs
variable {unitSize : Address} {tr : List Hook}

/-- What FastTrack has marked races at an earlier position. -/
theorem fastTrack_marks_racy (trackRacyInst : Bool) (filter : RegionFilter) (conforms : Conforms unitSize tr)
    (tree : ThreadTree tr) :
    ∃ last outs, Detector.run fastTrack (start _ unitSize trackRacyInst filter ()) tr = some (last, outs) ∧
      ∀ x, (metaAt last {} x).racy = true → ∃ j < tr.length, RacyAt syncOrder gateOpen unitSize tr x j := by
  let first : Detector Unit FastTrackMeta := start _ unitSize trackRacyInst filter ()
  obtain ⟨last, outs, ran, length, -, emits⟩ := fastTrack_sound.run_of first
    (base_tracks gate_of_counted rfl rfl rfl) conforms trivial (Or.inr fastTrack_blind) (start_fresh ..) trivial
    (Runs.along_of_forall (fun _ _ => trivial) _ _)
  refine ⟨last, outs, ran, fun x => ?_⟩
  have marked : ∀ n ≤ tr.length, ∀ d before, Detector.run fastTrack first (tr.take n) = some (d, before) →
      (metaAt d {} x).racy = true → ∃ j < n, RacyAt syncOrder gateOpen unitSize tr x j := by
    intro n
    induction n with
    | zero =>
      intro _ d before reached racy
      cases reached
      simp [metaAt, first, start] at racy
    | succ n ih =>
      intro bound next after through racy
      have here := List.getElem?_eq_getElem (Nat.lt_of_succ_le bound)
      obtain ⟨d, before, next', out, reached, stepped, through', found⟩ := Runs.run_at here ran
      cases through.symm.trans through'
      cases calm : (metaAt d {} x).racy with
      | true =>
        obtain ⟨j, below, race⟩ := ih (Nat.le_of_succ_le bound) d before reached calm
        exact ⟨j, Nat.lt_succ_of_lt below, race⟩
      | false =>
        obtain ⟨r, made, rfl⟩ := fastTrack_marks conforms here reached stepped calm racy
        obtain ⟨_, _, _, _, -, r', same, genuine⟩ := (emits n out found).reported _ made
        cases same
        exact ⟨n, Nat.lt_succ_self n, racyAt_of_genuine tree genuine⟩
  intro racy
  exact marked tr.length le_rfl last outs (by rwa [List.take_length]) racy

/-- MultiLock finds the hybrid races. -/
theorem multiLock_marks_hybrid {filter : RegionFilter} {trackRacyInst : Bool} (conforms : Conforms unitSize tr)
    (frees : UnlocksFree tr) (tree : ThreadTree tr) (monitored : Monitored filter tr)
    (careful : Runs.Along (Detector.step multiLock) (CarefulSteps unitSize)
      (start _ unitSize trackRacyInst filter ∅) tr) :
    ∃ last outs, Detector.run multiLock (start _ unitSize trackRacyInst filter ∅) tr = some (last, outs) ∧
      ∀ x i j, i < j → Hybrid (fun k => Accesses unitSize tr k x) tr i j → (metaAt last {} x).racy = true := by
  have empty : Holds {} (∅ : OrdMap ThreadId Lockset) := by
    intro t a
    simp [MultiLock.locksetOf]
  obtain ⟨last, outs, ran, _, ⟨epoch, inv⟩, _⟩ :=
    multiLock_analyses.run (start _ unitSize trackRacyInst filter ∅) multiLock_tracks conforms frees monitored
      (start_fresh ..) empty careful
  refine ⟨last, outs, ran, fun x i j before hybrid => (inv.units x).racy.mpr ?_⟩
  have bound : j < tr.length := by
    obtain ⟨_, _, _, _, _, _, _, second, _⟩ := hybrid
    exact second.bound
  exact ⟨j, bound, i, before, hybrid_processed tree hybrid⟩

end Runs

/-- On one trace, Djit marks every unit that FastTrack marks. These units and those of the
reports of AccuLock and HistLockPlus have hybrid races, and MultiLock marks them as long as it
skips no read without a record that covers it and never comes to eliminate a record. -/
theorem detectors_nested {unitSize : Address} (trackRacyInst : Bool) {filter : RegionFilter} {tr : List Hook}
    (conforms : Conforms unitSize tr) (frees : UnlocksFree tr) (tree : ThreadTree tr)
    (monitored : Monitored filter tr) :
    ∃ fast fastOuts dj djOuts accu accuOuts hist histOuts,
      Detector.run fastTrack (start _ unitSize trackRacyInst filter ()) tr = some (fast, fastOuts) ∧
      Detector.run djit (start _ unitSize trackRacyInst filter ()) tr = some (dj, djOuts) ∧
      Detector.run accuLock (start _ unitSize trackRacyInst filter ∅) tr = some (accu, accuOuts) ∧
      HistLockPlus.run (start _ unitSize trackRacyInst filter {}) tr = some (hist, histOuts) ∧
      (∀ x, (metaAt fast {} x).racy = true → (metaAt dj {} x).racy = true) ∧
      (∀ x, (metaAt dj {} x).racy = true → ∃ i j, Hybrid (fun k => Accesses unitSize tr k x) tr i j) ∧
      (∀ out ∈ accuOuts ++ histOuts, ∀ r, .createRace r ∈ out →
        ∃ i j, Hybrid (fun k => Accesses unitSize tr k r.addr) tr i j) ∧
      (Runs.Along (Detector.step multiLock) (CarefulSteps unitSize) (start _ unitSize trackRacyInst filter ∅) tr →
        ∃ multi multiOuts,
          Detector.run multiLock (start _ unitSize trackRacyInst filter ∅) tr = some (multi, multiOuts) ∧
          (∀ x, (metaAt dj {} x).racy = true → (metaAt multi {} x).racy = true) ∧
          ∀ out ∈ accuOuts ++ histOuts, ∀ r, .createRace r ∈ out → (metaAt multi {} r.addr).racy = true) := by
  have calls := withCalls conforms
  obtain ⟨fast, fastOuts, fastRan, fastRacy⟩ := fastTrack_marks_racy trackRacyInst filter conforms tree
  obtain ⟨dj, djOuts, djRan, djRacy⟩ := djit_racy_iff trackRacyInst conforms monitored
  obtain ⟨accu, accuOuts, accuRan, accuApart⟩ := @accuLock_run _ _ filter trackRacyInst calls frees
  obtain ⟨hist, histOuts, histRan, histApart⟩ := @histLockPlus_run _ _ filter trackRacyInst calls frees
  have djHybrid : ∀ x, (metaAt dj {} x).racy = true →
      ∃ i j, i < j ∧ Hybrid (fun k => Accesses unitSize tr k x) tr i j := by
    intro x racy
    obtain ⟨j, _, race⟩ := (djRacy x).mp racy
    obtain ⟨i, before, hybrid⟩ := hybrid_of_racyAt conforms race
    exact ⟨i, j, before, hybrid⟩
  have reportHybrid : ∀ out ∈ accuOuts ++ histOuts, ∀ r, .createRace r ∈ out →
      ∃ i j, i < j ∧ Hybrid (fun k => Accesses unitSize tr k r.addr) tr i j := by
    intro out member r made
    obtain ⟨n, genuine⟩ : ∃ n, Genuine unitSize tr (LocksApart tr) n r := by
      rcases List.mem_append.mp member with inside | inside
      · obtain ⟨n, found⟩ := List.getElem?_of_mem inside
        exact ⟨n, accuApart.2 n out found r made⟩
      · obtain ⟨n, found⟩ := List.getElem?_of_mem inside
        exact ⟨n, histApart.2 n out found r made⟩
    obtain ⟨i, before, hybrid⟩ := hybrid_of_apart genuine
    exact ⟨i, n, before, hybrid⟩
  refine ⟨fast, fastOuts, dj, djOuts, accu, accuOuts, hist, histOuts, fastRan, djRan, accuRan, histRan,
    fun x racy => (djRacy x).mpr (fastRacy x racy), fun x racy => ?_, fun out member r made => ?_, fun careful => ?_⟩
  · obtain ⟨i, j, _, hybrid⟩ := djHybrid x racy
    exact ⟨i, j, hybrid⟩
  · obtain ⟨i, j, _, hybrid⟩ := reportHybrid out member r made
    exact ⟨i, j, hybrid⟩
  · obtain ⟨multi, multiOuts, multiRan, multiRacy⟩ :=
      multiLock_marks_hybrid conforms frees tree monitored careful
    refine ⟨multi, multiOuts, multiRan, fun x racy => ?_, fun out member r made => ?_⟩
    · obtain ⟨i, j, before, hybrid⟩ := djHybrid x racy
      exact multiRacy x i j before hybrid
    · obtain ⟨i, j, before, hybrid⟩ := reportHybrid out member r made
      exact multiRacy r.addr i j before hybrid

/-- The two unprotected writes of a parent and its child. -/
theorem detectors_nested_fork :
    ∃ fast fastOuts dj djOuts multi multiOuts,
      Detector.run fastTrack (start _ 4 false (.addRegion {} 8 4) ()) forkTrace = some (fast, fastOuts) ∧
      Detector.run djit (start _ 4 false (.addRegion {} 8 4) ()) forkTrace = some (dj, djOuts) ∧
      Detector.run multiLock (start _ 4 false (.addRegion {} 8 4) ∅) forkTrace = some (multi, multiOuts) ∧
      (∀ x, (metaAt fast {} x).racy = true → (metaAt dj {} x).racy = true) ∧
      ∀ x, (metaAt dj {} x).racy = true → (metaAt multi {} x).racy = true := by
  obtain ⟨fast, fastOuts, dj, djOuts, _, _, _, _, fastRan, djRan, _, _, nested, _, _, marked⟩ :=
    @detectors_nested 4 false (.addRegion {} 8 4) forkTrace (by decide) (by decide) (by decide) (by decide)
  obtain ⟨multi, multiOuts, multiRan, marks, _⟩ := marked (by decide)
  exact ⟨fast, fastOuts, dj, djOuts, multi, multiOuts, fastRan, djRan, multiRan, nested, marks⟩

end Maple.Pintool
