import Maple.Pintool.Gate

/-! Clocks against program, fork and join order, over traces of hooks of any kind:
whatever is ordered before a thread is covered by its clock. -/
namespace Maple.Pintool
open Race

theorem forkJoin_acquires_iff (e : Hook) (c : Channel) : forkJoinOrder.acquires e c ↔
    ∃ v, c = .thread v ∧ (e.thread = some v ∨ (∃ curr, e = .threadStart curr v) ∨
      ∃ curr, e = .afterPthreadJoin curr v) := by
  simp only [forkJoinOrder, syncOrder]
  constructor
  · rintro ⟨⟨v, acting, rfl⟩ | ⟨curr, parent, rfl, rfl⟩ | ⟨curr, child, rfl, rfl⟩ | ⟨curr, addr, rfl, rfl⟩, t, same⟩
    · exact ⟨v, rfl, Or.inl acting⟩
    · exact ⟨parent, rfl, Or.inr (Or.inl ⟨curr, rfl⟩)⟩
    · exact ⟨child, rfl, Or.inr (Or.inr ⟨curr, rfl⟩)⟩
    · cases same
  · rintro ⟨v, rfl, acting | ⟨curr, rfl⟩ | ⟨curr, rfl⟩⟩
    · exact ⟨Or.inl ⟨v, acting, rfl⟩, v, rfl⟩
    · exact ⟨Or.inr (Or.inl ⟨curr, v, rfl, rfl⟩), v, rfl⟩
    · exact ⟨Or.inr (Or.inr (Or.inl ⟨curr, v, rfl, rfl⟩)), v, rfl⟩

theorem forkJoin_releases_iff (e : Hook) (u : ThreadId) :
    forkJoinOrder.releases e (.thread u) ↔ e.thread = some u := by
  simp only [forkJoinOrder, syncOrder]
  constructor
  · rintro ⟨⟨v, acting, same⟩ | ⟨curr, addr, rfl, same⟩, _⟩
    · cases same
      exact acting
    · cases same
  · exact fun acting => ⟨Or.inl ⟨u, acting, rfl⟩, u, rfl⟩

section Tree
variable {tr : List Hook} {n i : ℕ} {e : Hook} {u : ThreadId}

theorem Progress.started_next (p : Progress) (e : Hook) {t : ThreadId} (member : t ∈ p.started) :
    t ∈ (p.next e).started := by
  cases e with
  | threadStart => exact List.mem_cons_of_mem _ member
  | beforePthreadMutexUnlock _ addr => exact (p.started_unlock addr).symm ▸ member
  | _ => exact member

theorem ThreadTree.invalid_unstarted (tree : ThreadTree tr) (bound : n ≤ tr.length) :
    invalidThdId ∉ (progressAt tr n).started := by
  induction n with
  | zero => exact fun member => nomatch member
  | succ n ih =>
    have here := List.getElem?_eq_getElem (Nat.lt_of_succ_le bound)
    generalize tr[n] = e at here
    have before := ih (Nat.le_of_succ_le bound)
    have forks := tree n e here
    rw [progressAt_succ here]
    cases e with
    | threadStart curr parent =>
      exact fun member => (List.mem_cons.mp member).elim (fun same => forks.2.1 same.symm) before
    | beforePthreadMutexUnlock _ addr => exact (Progress.started_unlock _ addr).symm ▸ before
    | _ => exact before

/-- Only threads that have started know anything. -/
theorem ThreadTree.started_of_known (tree : ThreadTree tr) (bound : n ≤ tr.length)
    (known : forkJoinOrder.Known tr n (.thread u) i) : u ∈ (progressAt tr n).started := by
  induction n with
  | zero => exact absurd known Causality.not_known_zero
  | succ n ih =>
    have here := List.getElem?_eq_getElem (Nat.lt_of_succ_le bound)
    rcases (Causality.known_succ here).mp known with before | ⟨released, _⟩
    · rw [progressAt_succ here]
      exact Progress.started_next _ _ (ih (Nat.le_of_succ_le bound) before)
    · exact (tree.acting_runs here ((forkJoin_releases_iff _ _).mp released)).1

end Tree

/-- The clocks cover whatever is ordered by program, fork and join order. -/
structure ClockInv {G : Type} (tr : List Hook) (n : ℕ) (b : DetectorBase G) (epoch : Stamps) : Prop where
  past : ∀ {i t s}, epoch i = some (t, s) → i < n ∧ 0 < s ∧ ∃ e, tr[i]? = some e ∧ e.thread = some t
  seen : ∀ {i t s u}, epoch i = some (t, s) → forkJoinOrder.Known tr n (.thread u) i →
    s ≤ b.clockOf (.thread u) t
  present : ∀ {t}, t ∈ (progressAt tr n).started → ∃ vc, b.currVcMap[t]? = some vc ∧ 0 < vc.getClock t
  counted : b.Counted (progressAt tr n)

section Clocks
variable {G M : Type} {tr : List Hook} {n : ℕ} {b b' : DetectorBase G} {epoch : Stamps} {e : Hook}

/-- How clocks must move at a hook: none goes back but that of a new thread, which
covers its parent's; a joiner covers the joined thread. -/
theorem ClockInv.extend (inv : ClockInv tr n b epoch) (tree : ThreadTree tr) (here : tr[n]? = some e)
    (clock : ∀ t u, (∀ parent, e ≠ .threadStart t parent) →
      b.clockOf (.thread t) u ≤ b'.clockOf (.thread t) u)
    (start : ∀ curr parent, e = .threadStart curr parent → parent ∈ (progressAt tr n).started →
      ∀ u, b.clockOf (.thread parent) u ≤ b'.clockOf (.thread curr) u)
    (join : ∀ curr child, e = .afterPthreadJoin curr child →
      ∀ u, b.clockOf (.thread child) u ≤ b'.clockOf (.thread curr) u)
    (present : ∀ {t}, t ∈ (progressAt tr (n + 1)).started →
      ∃ vc, b'.currVcMap[t]? = some vc ∧ 0 < vc.getClock t)
    (counted : b'.Counted (progressAt tr (n + 1))) : ClockInv tr (n + 1) b' epoch := by
  have bound := (List.getElem?_eq_some_iff.mp here).1
  have kept : ∀ {i t s u}, epoch i = some (t, s) → forkJoinOrder.Known tr n (.thread u) i →
      s ≤ b'.clockOf (.thread u) t := by
    intro i t s u stamp known
    refine (inv.seen stamp known).trans (clock u t ?_)
    rintro parent rfl
    exact (tree n _ here).1 (tree.started_of_known bound.le known)
  refine ⟨fun stamp => ?_, fun {i t s u} stamp known => ?_, present, counted⟩
  · obtain ⟨below, rest⟩ := inv.past stamp
    exact ⟨Nat.lt_succ_of_lt below, rest⟩
  · rcases (Causality.known_succ here).mp known with before | ⟨released, same | ⟨d, acquired, before⟩⟩
    · exact kept stamp before
    · exact absurd same (inv.past stamp).1.ne
    · rw [forkJoin_releases_iff] at released
      obtain ⟨v, rfl, acting | ⟨curr, rfl⟩ | ⟨curr, rfl⟩⟩ := (forkJoin_acquires_iff e d).mp acquired
      · cases released.symm.trans acting
        exact kept stamp before
      · cases released
        exact (inv.seen stamp before).trans
          (start u v rfl (tree.started_of_known bound.le before) t)
      · cases released
        exact (inv.seen stamp before).trans (join u v rfl t)

theorem ClockInv.present_of_ages (inv : ClockInv tr n b epoch) (ages : b.Ages b') {t : ThreadId}
    (member : t ∈ (progressAt tr n).started) :
    ∃ vc, b'.currVcMap[t]? = some vc ∧ 0 < vc.getClock t := by
  obtain ⟨vc, found, positive⟩ := inv.present member
  obtain ⟨vc', found'⟩ := ages.present found
  have above := ages.clock t t
  rw [clockOf_of_vc found, clockOf_of_vc found'] at above
  exact ⟨vc', found', positive.trans_le above⟩

theorem ClockInv.of_grows (inv : ClockInv tr n b epoch) (grows : b.Grows b') :
    ClockInv tr n b' epoch where
  past := inv.past
  seen stamp known := (inv.seen stamp known).trans (grows.clock _ _)
  present member := inv.present_of_ages grows.toAges member
  counted := by
    rw [DetectorBase.Counted, grows.starts, grows.joins]
    exact inv.counted

/-- Hooks that start and join no thread. -/
theorem ClockInv.grow (inv : ClockInv tr n b epoch) (tree : ThreadTree tr) (here : tr[n]? = some e)
    (grows : b.Grows b') (start : ∀ curr parent, e ≠ .threadStart curr parent)
    (join : ∀ curr child, e ≠ .afterPthreadJoin curr child) : ClockInv tr (n + 1) b' epoch := by
  have counts : (progressAt tr (n + 1)).started = (progressAt tr n).started ∧
      (progressAt tr (n + 1)).joined = (progressAt tr n).joined := by
    rw [progressAt_succ here]
    exact Progress.threads_next _ start join
  refine inv.extend tree here (fun t u _ => grows.clock t u)
    (fun curr parent same => absurd same (start curr parent))
    (fun curr child same => absurd same (join curr child)) (fun member => ?_) ?_
  · rw [counts.1] at member
    exact inv.present_of_ages grows.toAges member
  · simp only [DetectorBase.Counted, counts, grows.starts, grows.joins]
    exact inv.counted

theorem ClockInv.join (inv : ClockInv tr n b epoch) (tree : ThreadTree tr) {curr child : ThreadId}
    (here : tr[n]? = some (.afterPthreadJoin curr child)) {joined : DetectorBase G}
    (result : b.afterPthreadJoin curr child = some joined) (grows : joined.Grows b')
    (counted : b'.Counted (progressAt tr (n + 1))) : ClockInv tr (n + 1) b' epoch := by
  simp only [DetectorBase.afterPthreadJoin, Option.bind_eq_bind, Option.bind_eq_some_iff,
    Option.pure_def, Option.some.injEq] at result
  obtain ⟨currVc, currFound, childVc, childFound, rfl⟩ := result
  let joined : DetectorBase G :=
    { b.setVc curr (currVc.join childVc) with threadJoinC := b.threadJoinC + 1 }
  have grows : joined.Grows b' := grows
  have set : b.Ages joined :=
    (DetectorBase.GrowsBy.setVc currFound (DetectorBase.le_join currVc childVc)).toAges.trans (.of_clocks rfl)
  have ages := set.trans grows.toAges
  have moved := progressAt_succ here
  refine inv.extend tree here (fun t u _ => ages.clock t u) (by rintro _ _ ⟨⟩) ?_
    (fun member => ?_) counted
  · intro _ _ same u
    cases same
    have clock : joined.clockOf (.thread curr) u = max (currVc.getClock u) (childVc.getClock u) := by
      rw [← VectorClock.getClock_join]
      exact (clockOf_setVc (b := b) curr u (currVc.join childVc) (.thread curr)).trans (if_pos rfl)
    rw [clockOf_of_vc childFound]
    exact (le_max_right _ _).trans (clock.ge.trans (grows.clock curr u))
  · rw [moved] at member
    exact inv.present_of_ages ages member

theorem ClockInv.start (inv : ClockInv tr n b epoch) (tree : ThreadTree tr) {curr parent : ThreadId}
    (here : tr[n]? = some (.threadStart curr parent)) (result : b.threadStart curr parent = some b')
    (counted : b'.Counted (progressAt tr (n + 1))) : ClockInv tr (n + 1) b' epoch := by
  have moved := progressAt_succ here
  have others : ∀ {b₀ : DetectorBase G} (vc : VectorClock), b.Ages b₀ → 0 < vc.getClock curr →
      (∀ t u, t ≠ curr → b.clockOf (.thread t) u ≤ ((b₀.setVc curr vc).enroll curr).clockOf (.thread t) u) ∧
      ∀ t, t ∈ (progressAt tr (n + 1)).started →
        ∃ vc', ((b₀.setVc curr vc).enroll curr).currVcMap[t]? = some vc' ∧ 0 < vc'.getClock t := by
    intro b₀ vc ages positive
    constructor
    · intro t u other
      rw [DetectorBase.clockOf_enroll, clockOf_setVc, if_neg (fun same => other (thread_injective same))]
      exact ages.clock t u
    · intro t member
      rw [moved] at member
      simp only [DetectorBase.enroll, DetectorBase.setVc, getElem?_insert_thread]
      by_cases same : curr = t
      · subst same
        exact ⟨vc, if_pos rfl, positive⟩
      · obtain ⟨vc', found, above⟩ := inv.present_of_ages ages
          ((List.mem_cons.mp member).resolve_left (fun equal => same equal.symm))
        exact ⟨vc', by rw [if_neg same]; exact found, above⟩
  by_cases main : parent = invalidThdId
  · subst main
    rw [b.threadStart_main curr, Option.some.injEq] at result
    subst result
    obtain ⟨clock, present⟩ := others (({} : VectorClock).increment curr)
      (DetectorBase.Ages.of_clocks rfl) (by simp)
    refine inv.extend tree here (fun t u apart => clock t u ?_) ?_ (by rintro _ _ ⟨⟩)
      (fun member => present _ member) counted
    · rintro rfl
      exact apart _ rfl
    · intro _ _ same member
      cases same
      exact absurd member (tree.invalid_unstarted (List.getElem?_eq_some_iff.mp here).1.le)
  · obtain ⟨parentVc, found⟩ : ∃ vc, b.currVcMap[parent]? = some vc := by
      cases found : b.currVcMap[parent]? with
      | none => simp [DetectorBase.threadStart, main, found] at result
      | some vc => exact ⟨vc, rfl⟩
    rw [b.threadStart_child curr main found, Option.some.injEq] at result
    subst result
    have ticked : b.Ages (b.setVc parent (parentVc.increment parent)) :=
      (DetectorBase.GrowsBy.setVc found (DetectorBase.le_increment parentVc parent)).toAges
    have above : ∀ u, max ((({} : VectorClock).increment curr).getClock u) (parentVc.getClock u) =
        ((({} : VectorClock).increment curr).join parentVc).getClock u := fun u =>
      (VectorClock.getClock_join ..).symm
    obtain ⟨clock, present⟩ := others _ ticked (by rw [← above]; simp)
    refine inv.extend tree here (fun t u apart => clock t u ?_) ?_ (by rintro _ _ ⟨⟩)
      (fun member => present _ member) counted
    · rintro rfl
      exact apart _ rfl
    · intro _ _ same _ u
      cases same
      rw [DetectorBase.clockOf_enroll, clockOf_setVc, if_pos rfl, ← above, clockOf_of_vc found]
      exact le_max_right _ _

/-- One hook that neither accesses nor frees memory. -/
theorem ClockInv.hook {alg : Algorithm G M} (inv : ClockInv tr n b epoch) (grows : alg.Grows)
    (tree : ThreadTree tr) (here : tr[n]? = some e) (result : b.onHook alg e = some b') :
    ClockInv tr (n + 1) b' epoch := by
  have counted : b'.Counted (progressAt tr (n + 1)) := by
    rw [progressAt_succ here]
    exact grows.counted result inv.counted
  by_cases start : ∃ curr parent, e = .threadStart curr parent
  · obtain ⟨curr, parent, rfl⟩ := start
    exact inv.start tree here result counted
  by_cases join : ∃ curr child, e = .afterPthreadJoin curr child
  · obtain ⟨curr, child, rfl⟩ := join
    obtain ⟨joined, taken, grown⟩ := grows.join result
    exact inv.join tree here taken grown.toGrows counted
  have notStart : ∀ curr parent, e ≠ .threadStart curr parent := fun curr parent same =>
    start ⟨curr, parent, same⟩
  have notJoin : ∀ curr child, e ≠ .afterPthreadJoin curr child := fun curr child same =>
    join ⟨curr, child, same⟩
  obtain ⟨curr, acting⟩ := e.acting
  exact inv.grow tree here (grows.onHook notStart notJoin acting result).toGrows notStart notJoin

/-- A memory access is stamped with the clock of its thread. -/
theorem ClockInv.access (inv : ClockInv tr n b epoch) (tree : ThreadTree tr) {k : RaceEventType}
    {curr : ThreadId} {inst : InstId} {addr size : Address}
    (here : tr[n]? = some (k.hook curr inst addr size)) :
    ClockInv tr (n + 1) b (Function.update epoch n (some (curr, b.clockOf (.thread curr) curr))) := by
  have acting := thread_hook k curr inst addr size
  have same : progressAt tr (n + 1) = progressAt tr n := by simp [progressAt_succ here]
  obtain ⟨vc, found, positive⟩ := inv.present (t := curr) (same ▸ (tree.acting_runs here acting).1)
  refine ⟨?_, ?_, by rw [same]; exact inv.present, by rw [same]; exact inv.counted⟩
  · intro i t s stamp
    by_cases last : i = n
    · subst last
      rw [Function.update_self] at stamp
      cases stamp
      exact ⟨Nat.lt_succ_self i, by rw [clockOf_of_vc found]; exact positive, _, here, acting⟩
    · rw [Function.update_of_ne last] at stamp
      obtain ⟨below, rest⟩ := inv.past stamp
      exact ⟨Nat.lt_succ_of_lt below, rest⟩
  · intro i t s u stamp known
    by_cases last : i = n
    · subst last
      rw [Function.update_self] at stamp
      cases stamp
      rcases (Causality.known_succ here).mp known with before | ⟨released, _⟩
      · exact absurd (Causality.known_lt before) (lt_irrefl i)
      · cases acting.symm.trans ((forkJoin_releases_iff _ _).mp released)
        exact le_rfl
    · rw [Function.update_of_ne last] at stamp
      exact inv.seen stamp ((forkJoinOrder_hooks.known_access here last _).mp known)

end Clocks
end Maple.Pintool
