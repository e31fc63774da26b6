import Maple.Pintool.Detector1
import Maple.Race.Growth

/-! The single-thread gate. While it is closed, the accessing thread is the only
one that runs: what the others did has reached it through joins, and what others
will do descends from it. -/
namespace Maple.Pintool
open Race

/-- Threads form a tree below one main thread: parents still run, and a thread is
joined at most once, by another one, and makes no more calls. -/
def Forks (p : Progress) : Hook → Prop
  | .threadStart curr parent => curr ∉ p.started ∧ curr ≠ invalidThdId ∧
      (p.started = [] ∧ parent = invalidThdId ∨ p.Runs parent)
  | .afterPthreadJoin curr child => p.Runs curr ∧ p.Runs child ∧ curr ≠ child
  | e => ∀ t ∈ e.thread, p.Runs t

instance (p : Progress) (e : Hook) : Decidable (Forks p e) := by
  induction e using Hook.casesOn <;> simp only [Forks] <;> infer_instance

/-- The hooks of a trace, of whatever kind, keep to the thread tree. -/
def ThreadTree (tr : List Hook) : Prop := ∀ n e, tr[n]? = some e → Forks (progressAt tr n) e

theorem threadTree_iff (tr : List Hook) : ThreadTree tr ↔
    ∀ n : Fin tr.length, Forks (progressAt tr n) (tr.get n) := by
  constructor
  · exact fun tree n => tree n _ (List.getElem?_eq_getElem n.isLt)
  · intro tree n e here
    obtain ⟨bound, same⟩ := List.getElem?_eq_some_iff.mp here
    exact same ▸ tree ⟨n, bound⟩

instance (tr : List Hook) : Decidable (ThreadTree tr) := decidable_of_iff _ (threadTree_iff tr).symm

section Progress
variable {p : Progress} {e : Hook} {t v : ThreadId}

theorem Forks.runs_next (forks : Forks p e) (runs : p.Runs v)
    (unjoined : ∀ curr, e ≠ .afterPthreadJoin curr v) : (p.next e).Runs v := by
  cases e with
  | threadStart curr parent => exact ⟨List.mem_cons_of_mem _ runs.1, runs.2⟩
  | afterPthreadJoin curr child =>
    refine ⟨runs.1, fun member => ?_⟩
    rcases List.mem_cons.mp member with rfl | member
    · exact unjoined curr rfl
    · exact runs.2 member
  | beforePthreadMutexUnlock _ addr => exact (p.runs_unlock addr v).mpr runs
  | _ => exact runs

/-- The acting thread runs behind its hook. -/
theorem Forks.acting_runs (forks : Forks p e) (joined : ∀ u ∈ p.joined, u ∈ p.started)
    (acting : e.thread = some t) : (p.next e).Runs t := by
  cases e with
  | threadStart curr parent =>
    cases acting
    exact ⟨List.mem_cons_self, fun member => forks.1 (joined _ member)⟩
  | afterPthreadJoin curr child =>
    cases acting
    exact forks.runs_next forks.1 (fun _ same => forks.2.2 (Hook.afterPthreadJoin.inj same).2.symm)
  | beforePthreadMutexUnlock _ addr =>
    exact (p.runs_unlock addr t).mpr (forks t acting)
  | _ =>
    have runs := forks t acting
    exact runs

theorem Progress.runs_of_next (runs : (p.next e).Runs v) :
    p.Runs v ∨ ∃ parent, e = .threadStart v parent := by
  cases e with
  | threadStart curr parent =>
    rcases List.mem_cons.mp runs.1 with rfl | member
    · exact Or.inr ⟨parent, rfl⟩
    · exact Or.inl ⟨member, runs.2⟩
  | afterPthreadJoin curr child =>
    exact Or.inl ⟨runs.1, fun member => runs.2 (List.mem_cons_of_mem _ member)⟩
  | beforePthreadMutexUnlock _ addr => exact Or.inl ((p.runs_unlock addr v).mp runs)
  | _ => exact Or.inl runs

/-- Every thread is started and joined at most once, and not joined before it started. -/
structure Counted (p : Progress) : Prop where
  started : p.started.Nodup
  joined : p.joined.Nodup
  below : ∀ t ∈ p.joined, t ∈ p.started

theorem Counted.next (counted : Counted p) (forks : Forks p e) : Counted (p.next e) := by
  cases e with
  | threadStart curr parent =>
    exact ⟨List.nodup_cons.mpr ⟨forks.1, counted.started⟩, counted.joined,
      fun t member => List.mem_cons_of_mem _ (counted.below t member)⟩
  | afterPthreadJoin curr child =>
    refine ⟨counted.started, List.nodup_cons.mpr ⟨forks.2.1.2, counted.joined⟩, fun t member => ?_⟩
    rcases List.mem_cons.mp member with rfl | member
    · exact forks.2.1.1
    · exact counted.below t member
  | beforePthreadMutexUnlock _ addr =>
    simp only [Progress.next]
    exact ⟨by rw [Progress.started_unlock]; exact counted.started,
      by rw [Progress.joined_unlock]; exact counted.joined, by simpa using counted.below⟩
  | _ => exact ⟨counted.started, counted.joined, counted.below⟩

/-- The counters tell that there is no second running thread. -/
theorem Counted.alone (counted : Counted p) (closed : gateOpen p = false) (runs : p.Runs t)
    (other : p.Runs v) : v = t := by
  by_contra apart
  have distinct : (v :: t :: p.joined).Nodup := by
    simp only [List.nodup_cons, List.mem_cons, not_or]
    exact ⟨⟨apart, other.2⟩, runs.2, counted.joined⟩
  have inside : v :: t :: p.joined ⊆ p.started := by
    simp only [List.cons_subset]
    exact ⟨other.1, runs.1, counted.below⟩
  have fits := (List.subperm_of_subset distinct inside).length_le
  simp only [gateOpen, List.length_cons] at closed fits
  grind

end Progress

section Tree
variable {tr : List Hook} {n i j : ℕ} {e f : Hook} {t u v : ThreadId}

theorem ThreadTree.counted (tree : ThreadTree tr) (bound : n ≤ tr.length) :
    Counted (progressAt tr n) := by
  induction n with
  | zero => exact ⟨List.nodup_nil, List.nodup_nil, fun _ member => nomatch member⟩
  | succ n ih =>
    have here := List.getElem?_eq_getElem (Nat.lt_of_succ_le bound)
    rw [progressAt_succ here]
    exact (ih (Nat.le_of_succ_le bound)).next (tree n _ here)

theorem ThreadTree.acting_runs (tree : ThreadTree tr) (here : tr[n]? = some e)
    (acting : e.thread = some t) : (progressAt tr (n + 1)).Runs t := by
  obtain ⟨bound, _⟩ := List.getElem?_eq_some_iff.mp here
  rw [progressAt_succ here]
  exact (tree n e here).acting_runs (tree.counted bound.le).below acting

theorem known_own (here : tr[n]? = some e) (acting : e.thread = some t) :
    forkJoinOrder.Known tr (n + 1) (.thread t) n :=
  ⟨n, Nat.lt_succ_self n, e, here, (forkJoinOrder_hooks.own acting).2, Or.inl rfl⟩

/-- Every past hook is known to a thread that still runs: a joined thread has
left what it knew to its joiner. -/
theorem ThreadTree.known_to_running (tree : ThreadTree tr) (bound : n ≤ tr.length)
    (there : tr[i]? = some f) (acting : f.thread = some u) (earlier : i < n) :
    ∃ v, (progressAt tr n).Runs v ∧ forkJoinOrder.Known tr n (.thread v) i := by
  induction n with
  | zero => exact absurd earlier (Nat.not_lt_zero _)
  | succ n ih =>
    have here := List.getElem?_eq_getElem (Nat.lt_of_succ_le bound)
    generalize tr[n] = e at here
    have forks := tree n e here
    rcases Nat.lt_succ_iff_lt_or_eq.mp earlier with before | rfl
    · obtain ⟨v, runs, known⟩ := ih (Nat.le_of_succ_le bound) before
      by_cases joins : ∃ curr, e = .afterPthreadJoin curr v
      · obtain ⟨curr, rfl⟩ := joins
        refine ⟨curr, tree.acting_runs here rfl, (Causality.known_succ here).mpr (Or.inr ⟨?_, Or.inr ?_⟩)⟩
        · exact (forkJoinOrder_hooks.joinReleases curr v _).mpr rfl
        · exact ⟨.thread v, (forkJoinOrder_hooks.joinAcquires curr v _).mpr (Or.inr rfl), known⟩
      · refine ⟨v, ?_, Causality.known_mono known (Nat.le_succ n)⟩
        rw [progressAt_succ here]
        exact forks.runs_next runs (fun curr same => joins ⟨curr, same⟩)
    · exact ⟨u, tree.acting_runs there acting, known_own there acting⟩

/-- Behind a hook of the only running thread, all running threads know it. -/
theorem ThreadTree.known_to_descendants (tree : ThreadTree tr) (bound : n ≤ tr.length)
    (there : tr[i]? = some f) (acting : f.thread = some t)
    (alone : ∀ v, (progressAt tr (i + 1)).Runs v → v = t) (later : i < n)
    (runs : (progressAt tr n).Runs v) : forkJoinOrder.Known tr n (.thread v) i := by
  induction n generalizing v with
  | zero => exact absurd later (Nat.not_lt_zero _)
  | succ n ih =>
    rcases Nat.lt_succ_iff_lt_or_eq.mp later with before | rfl
    · have here := List.getElem?_eq_getElem (Nat.lt_of_succ_le bound)
      generalize tr[n] = e at here
      rw [progressAt_succ here] at runs
      rcases Progress.runs_of_next runs with ran | ⟨parent, rfl⟩
      · exact Causality.known_mono (ih (Nat.le_of_succ_le bound) before ran) (Nat.le_succ n)
      · obtain ⟨_, _, ⟨none, _⟩ | ran⟩ := tree n _ here
        · obtain ⟨w, ran, _⟩ :=
            tree.known_to_running (Nat.le_of_succ_le bound) there acting before
          rw [Progress.Runs, none] at ran
          cases ran.1
        · have known := ih (Nat.le_of_succ_le bound) before ran
          refine (Causality.known_succ here).mpr (Or.inr ⟨?_, Or.inr ⟨.thread parent, ?_, known⟩⟩)
          · exact (forkJoinOrder_hooks.startReleases v parent _).mpr rfl
          · exact (forkJoinOrder_hooks.startAcquires v parent _).mpr (Or.inr rfl)
    · cases alone v runs
      exact known_own there acting

/-- An access behind the closed gate is ordered with every hook of every other
thread, by program, fork and join order alone. -/
theorem ThreadTree.ordered_of_closed (tree : ThreadTree tr) {k : RaceEventType} {inst : InstId}
    {addr size : Address} (there : tr[i]? = some (k.hook t inst addr size))
    (closed : gateOpen (progressAt tr i) = false) (here : tr[j]? = some e)
    (acting : e.thread = some u) (other : u ≠ t) :
    forkJoinOrder.HB tr i j ∨ forkJoinOrder.HB tr j i := by
  have bound := (List.getElem?_eq_some_iff.mp there).1
  have access := thread_hook k t inst addr size
  have next : progressAt tr (i + 1) = progressAt tr i := by simp [progressAt_succ there]
  have ran := tree.acting_runs there access
  have alone : ∀ v, (progressAt tr (i + 1)).Runs v → v = t := by
    intro v runs
    rw [next] at runs ran
    exact (tree.counted bound.le).alone closed ran runs
  rcases Nat.lt_trichotomy j i with earlier | rfl | later
  · obtain ⟨v, runs, known⟩ := tree.known_to_running bound.le here acting earlier
    rw [← next] at runs
    cases alone v runs
    exact Or.inr (Causality.hb_of_known there (forkJoinOrder_hooks.own access).1 known le_rfl)
  · rw [there, Option.some.injEq] at here
    rw [← here, access, Option.some.injEq] at acting
    exact absurd acting.symm other
  · have bounded := (List.getElem?_eq_some_iff.mp here).1
    have known := tree.known_to_descendants (Nat.succ_le_of_lt bounded) there access alone
      (Nat.lt_succ_of_lt later) (tree.acting_runs here acting)
    -- a hook passes on only what it has acquired before
    rcases (Causality.known_succ here).mp known with before | ⟨_, same | acquired⟩
    · exact Or.inl (Causality.hb_of_known here (forkJoinOrder_hooks.own acting).1 before le_rfl)
    · exact absurd same later.ne
    · exact Or.inl ((Causality.hb_iff_known here).mpr acquired)

end Tree

/-- A class derived from `Detector1`. -/
structure OnDetector1 {G M : Type} (alg : Algorithm G M) : Prop where
  gate : alg.gate = gate
  grows : alg.Grows

theorem djit_onDetector1 : OnDetector1 djit := ⟨rfl, .base rfl rfl rfl⟩

section Counters
variable {G M : Type} {alg : Algorithm G M} {tr : List Hook}

/-- Along a run the gate is what the trace says. -/
theorem OnDetector1.counted (derived : OnDetector1 alg) {s d : Detector G M} {outs : List (List DbCall)}
    (initial : s.Counted {}) {i : ℕ} (bound : i ≤ tr.length)
    (ran : Detector.run alg s (tr.take i) = some (d, outs)) : d.Counted (progressAt tr i) := by
  refine Runs.run_take (fun n d => d.Counted (progressAt tr n)) initial ?_ bound ran
  intro n d e next out here counted stepped
  obtain ⟨b, result, grown⟩ := Detector.step_base stepped
  rw [progressAt_succ here, DetectorBase.Counted, (grown 0).starts, (grown 0).joins]
  exact derived.grows.counted result counted

end Counters
end Maple.Pintool
