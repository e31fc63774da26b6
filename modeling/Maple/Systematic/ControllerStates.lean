import Maple.Systematic.ControllerRuns

/-! The states that the controller hands to the scheduler: which actions are enabled in
them, and which of them are deadlocks. -/
namespace Maple.Systematic

namespace Controller
variable {c : Controller} {names : Interned} {actions : List Action} {a : Action} {t : ThreadId} {p : Pending}

theorem getElem?_addEnabled (distinct : (actions.map Action.thd).Nodup) (k : Thread) :
    (actions.foldl (fun map a => map.insert a.thd a) (∅ : OrdMap Thread Action))[k]? = actions.find? (·.thd = k) := by
  simpa using getElem?_foldl_insert Action.thd id actions distinct ∅ k

theorem mem_addEnabled (distinct : (actions.map Action.thd).Nodup) : a ∈ (addEnabled actions).enabled ↔ a ∈ actions := by
  have whole : State.Distinct { enabled := actions } := distinct
  have found (k : Thread) : actions.find? (·.thd = k) = some a ↔ a ∈ actions ∧ a.thd = k := whole.findEnabled_iff
  simp only [addEnabled, List.mem_map, Prod.exists, Std.ExtTreeMap.mem_toList_iff_getElem?_eq_some,
    getElem?_addEnabled distinct]
  constructor
  · rintro ⟨k, b, listed, rfl⟩
    exact List.mem_of_find?_eq_some listed
  · intro member
    exact ⟨a.thd, a, (found a.thd).mpr ⟨member, rfl⟩, rfl⟩

theorem distinct_addEnabled (distinct : (actions.map Action.thd).Nodup) : (addEnabled actions).Distinct := by
  have keys : (addEnabled actions).enabled.map Action.thd =
      (actions.foldl (fun map a => map.insert a.thd a) (∅ : OrdMap Thread Action)).keys := by
    rw [← Std.ExtTreeMap.map_fst_toList_eq_keys, addEnabled, List.map_map]
    refine List.map_congr_left ?_
    rintro ⟨k, b⟩ listed
    rw [Std.ExtTreeMap.mem_toList_iff_getElem?_eq_some, getElem?_addEnabled distinct] at listed
    simpa using List.find?_some listed
  rw [State.Distinct, keys]
  exact Std.ExtTreeMap.nodup_keys

theorem perm_addEnabled (distinct : (actions.map Action.thd).Nodup) : (addEnabled actions).enabled.Perm actions :=
  (List.perm_ext_iff_of_nodup (List.Nodup.of_map _ (distinct_addEnabled distinct)) (List.Nodup.of_map _ distinct)).mpr
    fun _ => mem_addEnabled distinct

/-- The actions that are enabled in normal mode. -/
def enabledActions (names : Interned) (c : Controller) : List Action :=
  (c.actionTable.toList.filter fun e => c.enableTable e.1).map fun e => e.2.action names e.1

theorem mem_enabledActions : a ∈ c.enabledActions names ↔
    ∃ t p, c.actionTable[t]? = some p ∧ c.enableTable t = true ∧ p.action names t = a := by
  simp only [enabledActions, List.mem_map, List.mem_filter, Prod.exists, Std.ExtTreeMap.mem_toList_iff_getElem?_eq_some,
    and_assoc]

theorem nodup_enabledActions (injective : Function.Injective names.thread) :
    ((c.enabledActions names).map Action.thd).Nodup := by
  have threads : (c.enabledActions names).map Action.thd =
      ((c.actionTable.toList.filter fun e => c.enableTable e.1).map Prod.fst).map names.thread := by
    simp only [enabledActions, List.map_map]
    rfl
  rw [threads]
  refine List.Nodup.map injective ?_
  refine List.Nodup.sublist (List.Sublist.map _ List.filter_sublist) ?_
  rw [Std.ExtTreeMap.map_fst_toList_eq_keys]
  exact Std.ExtTreeMap.nodup_keys

end Controller

open Controller in
/-- When every live thread has registered its action, the enabled ones are those of the
threads that do not have to wait; but between the units of a racy access its thread goes on
alone. The program is deadlocked, or has come to its end, exactly in the terminal states. -/
theorem create_state_exact {r : ControlRun} (reached : r.Reachable) (names : Interned)
    (injective : Function.Injective names.thread) (schedRace : Bool)
    (settled : ∀ t, r.alive t = true → ∃ p, r.control.actionTable[t]? = some p) :
    ∃ s, r.control.createState names schedRace = some s ∧ s.Distinct ∧
      ((∃ (t : ThreadId) (p : Pending), schedRace = true ∧
          r.control.raceActiveTable[t]? = some true ∧ r.control.actionTable[t]? = some p ∧
          p.call.isRace = true ∧ s.enabled = [p.action names t]) ∨
        (∀ t : ThreadId, schedRace = true → r.control.raceActiveTable[t]? ≠ some true) ∧
          ∀ a, a ∈ s.enabled ↔ ∃ (t : ThreadId) (p : Pending),
            r.control.actionTable[t]? = some p ∧ ¬ r.MustWait t p.call ∧
            p.action names t = a) ∧
      (s.isTerminal = true ↔ ∀ (t : ThreadId) (p : Pending), r.control.actionTable[t]? = some p → r.MustWait t p.call) := by
  have inv := reached.inv
  have enabled_iff {t : ThreadId} {p : Pending} (found : r.control.actionTable[t]? = some p) :
      r.control.enableTable t = true ↔ ¬ r.MustWait t p.call := by
    rw [← inv.enabled_iff found, Bool.not_eq_false]
  cases active : if schedRace then r.control.raceActiveTable.toList.find? (·.2) else none with
  | some e =>
    obtain ⟨t, b⟩ := e
    have racing : schedRace = true ∧ r.control.raceActiveTable[t]? = some true := by
      split at active
      · next on =>
        obtain rfl : b = true := by simpa using List.find?_some active
        exact ⟨on, Std.ExtTreeMap.mem_toList_iff_getElem?_eq_some.mp (List.mem_of_find?_eq_some active)⟩
      · simp at active
    obtain ⟨p, found⟩ := settled t (inv.racing t racing.2).1
    obtain ⟨race, enabled⟩ := inv.enabled_of_racing racing.2 found
    have created : r.control.createState names schedRace = some (addEnabled [p.action names t]) := by
      simp [createState, active, found, debugAssert_pos enabled]
    have distinct : ([p.action names t].map Action.thd).Nodup := List.nodup_singleton _
    have single := List.perm_singleton.mp (perm_addEnabled distinct)
    refine ⟨_, created, distinct_addEnabled distinct, Or.inl ⟨t, p, racing.1, racing.2, found, race, single⟩, ?_⟩
    simp only [State.isTerminal, single, List.isEmpty_cons, Bool.false_eq_true, false_iff, not_forall]
    exact ⟨t, p, found, (enabled_iff found).mp enabled⟩
  | none =>
    have calm (t : ThreadId) (on : schedRace = true) : r.control.raceActiveTable[t]? ≠ some true := by
      intro racing
      rw [if_pos on, List.find?_eq_none] at active
      exact active (t, true) (Std.ExtTreeMap.mem_toList_iff_getElem?_eq_some.mpr racing) rfl
    have created : r.control.createState names schedRace = some (addEnabled (r.control.enabledActions names)) := by
      simp [createState, active, enabledActions]
    have members (a : Action) : a ∈ (addEnabled (r.control.enabledActions names)).enabled ↔
        ∃ t p, r.control.actionTable[t]? = some p ∧ ¬ r.MustWait t p.call ∧ p.action names t = a := by
      rw [mem_addEnabled (nodup_enabledActions injective), mem_enabledActions]
      refine exists_congr fun t => exists_congr fun p => and_congr_right fun found => ?_
      rw [enabled_iff found]
    refine ⟨_, created, distinct_addEnabled (nodup_enabledActions injective), Or.inr ⟨calm, members⟩, ?_⟩
    rw [State.isTerminal, List.isEmpty_iff, List.eq_nil_iff_forall_not_mem]
    constructor
    · intro empty t p found
      by_contra free
      exact empty _ ((members _).mpr ⟨t, p, found, free, rfl⟩)
    · intro stuck a member
      obtain ⟨t, p, found, free, _⟩ := (members a).mp member
      exact free (stuck t p found)

namespace ControlRun
variable {r s : ControlRun} {t : ThreadId}

/-- A thread runs when it has started. -/
theorem alive_step {e : ControlEvent} (stepped : r.step e = some s) (living : s.alive t = true) :
    r.alive t = true ∨ e = .start t := by
  cases e with
  | start self =>
    cases stepped
    by_cases same : t = self
    · exact Or.inr (congrArg _ same.symm)
    · simp only [Function.update_of_ne same] at living
      exact Or.inl living
  | call self p =>
    obtain ⟨control, _, stepped⟩ := Option.bind_eq_some_iff.mp stepped
    cases stepped
    left
    simp only [recordCall] at living
    split at living <;> exact living
  | resume self =>
    obtain ⟨p, _, stepped⟩ := Option.bind_eq_some_iff.mp stepped
    obtain ⟨⟨err, control⟩, _, stepped⟩ := Option.bind_eq_some_iff.mp stepped
    cases stepped
    rw [recordReturn_eq] at living
    exact Or.inl living
  | endRace self =>
    cases stepped
    exact Or.inl living
  | exit self =>
    obtain ⟨control, _, stepped⟩ := Option.bind_eq_some_iff.mp stepped
    cases stepped
    by_cases same : t = self
    · simp [same] at living
    · simp only [Function.update_of_ne same] at living
      exact Or.inl living

theorem alive_follow {events : List ControlEvent} (followed : Runs.follow Allows step r events = some s)
    (living : s.alive t = true) : r.alive t = true ∨ .start t ∈ events := by
  induction events generalizing r with
  | nil =>
    cases followed
    exact Or.inl living
  | cons e rest ih =>
    rw [Runs.follow] at followed
    split at followed
    · obtain ⟨next, stepped, followed⟩ := Option.bind_eq_some_iff.mp followed
      rcases ih followed with before | later
      · rcases alive_step stepped before with first | rfl
        · exact Or.inl first
        · exact Or.inr List.mem_cons_self
      · exact Or.inr (List.mem_cons_of_mem e later)
    · cases followed

end ControlRun

/-- One thread holds a mutex and is about to yield, and another one waits for the mutex. -/
theorem create_state_exact_pair : ∃ (r : ControlRun) (s : State), r.Reachable ∧ r.alive 1 = true ∧ r.alive 2 = true ∧
    r.control.createState ⟨id, BitVec.toNat⟩ false = some s ∧ s.isTerminal = false ∧
    ∀ a, a ∈ s.enabled ↔ a = { thd := 1, op := .schedYield, inst := some 0 } := by
  have t : (Runs.follow ControlRun.Allows ControlRun.step {} [.start 1, .start 2, .call 1 ⟨.mutexLock 8, 0⟩, .resume 1,
      .call 1 ⟨.schedYield, 0⟩, .call 2 ⟨.mutexLock 8, 0⟩]).any (fun r =>
        r.control.actionTable[(1 : ThreadId)]? = some ⟨.schedYield, 0⟩ &&
        r.control.actionTable[(2 : ThreadId)]? = some ⟨.mutexLock 8, 0⟩ && r.control.enableTable 2 = false) = true := by
    decide +kernel
  obtain ⟨r, followed, found⟩ := (Option.any_eq_true _ _).mp t
  simp only [Bool.and_eq_true, decide_eq_true_eq] at found
  obtain ⟨⟨yields, locks⟩, disabled⟩ := found
  have fresh : ControlRun.Reachable {} := .start rfl
  have reached : r.Reachable := fresh.follow followed
  have living {t : ThreadId} (runs : r.alive t = true) : t = 1 ∨ t = 2 := by
    simpa using ControlRun.alive_follow followed runs
  obtain ⟨s, created, _, exact, terminal⟩ := create_state_exact reached ⟨id, BitVec.toNat⟩ Function.injective_id
    false fun t runs => by
      rcases living runs with rfl | rfl
      · exact ⟨_, yields⟩
      · exact ⟨_, locks⟩
  have waits := (reached.inv.enabled_iff locks).mp disabled
  refine ⟨r, s, reached, reached.inv.registered 1 _ yields, reached.inv.registered 2 _ locks, created, ?_, fun a => ?_⟩
  · rw [Bool.eq_false_iff, ne_eq, terminal, not_forall]
    exact ⟨1, fun all => all _ yields⟩
  · obtain ⟨_, _, impossible, _⟩ | ⟨_, members⟩ := exact
    · cases impossible
    · rw [members]
      constructor
      · rintro ⟨t, p, registered, free, rfl⟩
        rcases living (reached.inv.registered t p registered) with rfl | rfl
        · cases yields.symm.trans registered
          rfl
        · cases locks.symm.trans registered
          exact absurd waits free
      · rintro rfl
        exact ⟨1, _, yields, fun waits => waits, rfl⟩

end Maple.Systematic
