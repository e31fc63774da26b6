import Maple.Idiom.PredictorCond

/-! Which signal a waiter claims does not matter, as long as a waiter that times out
takes none that others need: every released waiter then finds one. -/
namespace Maple.Idiom.CondRun
variable {r next : CondRun} {t u : ThreadId} {id : BitVec 32} {info : WaitInfo} {wait : Wait}

theorem firstSignal_none {signalMap : OrdMap (BitVec 32) VectorClock} (none : firstSignal signalMap = none) :
    signalMap = ∅ :=
  Std.ExtTreeMap.minKey?_eq_none_iff.mp (firstSignal_eq signalMap ▸ none)

theorem firstSignal_mem {signalMap : OrdMap (BitVec 32) VectorClock} (first : firstSignal signalMap = some id) :
    id ∈ signalMap :=
  Std.ExtTreeMap.minKey?_mem (firstSignal_eq signalMap ▸ first)

theorem firstSignal_le {signalMap : OrdMap (BitVec 32) VectorClock} {other : BitVec 32}
    (first : firstSignal signalMap = some id) (member : other ∈ signalMap) : id ≤ other := by
  rw [firstSignal_eq] at first
  have ordered := (Std.ExtTreeMap.minKey?_eq_some_iff_mem_and_forall.mp first).2 other member
  simp only [compare, compareOfLessAndEq] at ordered
  split at ordered
  · next less => exact BitVec.le_of_lt less
  · split at ordered
    · next same => exact same ▸ BitVec.le_refl id
    · exact nomatch ordered

theorem signals_of_found (found : r.state.cond.waitMap[t]? = some info) : r.signals t = info.signalMap := by
  simp [signals, found]

theorem signals_of_none (absent : r.state.cond.waitMap[t]? = none) : r.signals t = ∅ := by
  simp [signals, absent]

theorem toNat_mem_pending : id.toNat ∈ r.pending t ↔ id ∈ r.signals t := by
  simp only [pending, List.mem_toFinset, List.mem_map, Std.ExtTreeMap.mem_keys]
  constructor
  · rintro ⟨other, member, same⟩
    rwa [← BitVec.eq_of_toNat_eq same]
  · exact fun member => ⟨id, member, rfl⟩

theorem mem_pending {n : ℕ} (member : n ∈ r.pending t) : ∃ id ∈ r.signals t, id.toNat = n := by
  simpa only [pending, List.mem_toFinset, List.mem_map, Std.ExtTreeMap.mem_keys] using member

theorem mem_waiters : t ∈ r.waiters ↔ t ∈ r.state.cond.waitMap := by
  rw [waiters, List.mem_toFinset, Std.ExtTreeMap.mem_keys]

/-- The recorded waiters are those that wait. -/
structure Linked (r : CondRun) : Prop where
  waiting : ∀ t, (r.waits t).isSome = true ↔ t ∈ r.state.cond.waitMap
  info : ∀ t wait info, r.waits t = some wait → r.state.cond.waitMap[t]? = some info →
    info.timed = wait.timed ∧ info.broadcasted = wait.broadcast

/-- A broadcast keeps its waiters apart from those that come later. -/
structure Inv (r : CondRun) : Prop extends Linked r where
  enough : Tokens.Enough r.unreached r.released r.pending
  apart : ∀ b ∈ r.waiters, b ∉ r.unreached → ∀ u ∈ r.unreached, ∀ id ∈ r.signals b, id ∉ r.signals u

theorem Linked.found (linked : r.Linked) (waits : r.waits t = some wait) :
    ∃ info, r.state.cond.waitMap[t]? = some info ∧ info.timed = wait.timed ∧ info.broadcasted = wait.broadcast := by
  have member := (linked.waiting t).mp (by rw [waits]; rfl)
  have found := Std.ExtTreeMap.getElem?_eq_some_getElem member
  exact ⟨_, found, linked.info t wait _ waits found⟩

theorem Linked.mem_unreached (linked : r.Linked) :
    u ∈ r.unreached ↔ ∃ wait, r.waits u = some wait ∧ wait.broadcast = false := by
  simp only [unreached, Finset.mem_filter, mem_waiters, ← linked.waiting, Option.any_eq_true, Bool.not_eq_true']
  constructor
  · rintro ⟨-, reached⟩
    exact reached
  · rintro ⟨wait, waits, rest⟩
    exact ⟨by rw [waits]; rfl, wait, waits, rest⟩

theorem Linked.mem_released (linked : r.Linked) :
    u ∈ r.released ↔ ∃ wait, r.waits u = some wait ∧ wait.signaled = true ∧ wait.broadcast = false := by
  simp only [released, Finset.mem_filter, mem_waiters, ← linked.waiting, Option.any_eq_true, Bool.and_eq_true,
    Bool.not_eq_true']
  constructor
  · rintro ⟨-, reached⟩
    exact reached
  · rintro ⟨wait, waits, rest⟩
    exact ⟨by rw [waits]; rfl, wait, waits, rest⟩

/-- Runs that record the same for a waiter. -/
theorem signals_congr (same : next.state.cond.waitMap[u]? = r.state.cond.waitMap[u]?) :
    next.signals u = r.signals u := by
  rw [signals, signals, same]

theorem pending_congr (same : next.signals u = r.signals u) : next.pending u = r.pending u := by
  rw [pending, pending, same]

theorem pending_of_mem (same : ∀ id, id ∈ next.signals u ↔ id ∈ r.signals u) : next.pending u = r.pending u := by
  ext n
  constructor
  · intro member
    obtain ⟨id, has, rfl⟩ := mem_pending member
    exact toNat_mem_pending.mpr ((same id).mp has)
  · intro member
    obtain ⟨id, has, rfl⟩ := mem_pending member
    exact toNat_mem_pending.mpr ((same id).mpr has)

theorem inv_initial (initial : Initial r) : r.Inv := by
  obtain ⟨currVcMap, rfl⟩ := initial
  have nobody : ({ state := { currVcMap := currVcMap } } : CondRun).waiters = ∅ := rfl
  refine ⟨⟨by simp, nofun⟩, ?_, fun b member => ?_⟩
  · rw [unreached, released, nobody]
    exact .none
  · rw [nobody] at member
    exact absurd member (Finset.notMem_empty b)

/-- A signal is recorded for the waiters that no broadcast has reached. -/
theorem signal_spec (released : Option ThreadId) (linked : r.Linked) (started : t ∈ r.state.currVcMap) :
    ∃ next, r.step (.signal t released) = some next ∧ next.Linked ∧
      (∀ u, next.waits u = (r.waits u).map fun wait =>
        if released = some u then { wait with signaled := true } else wait) ∧
      (∀ u ∈ r.unreached, ∀ id, id ∈ next.signals u ↔ id = r.state.cond.currSignalId + 1 ∨ id ∈ r.signals u) ∧
      ∀ u, u ∉ r.unreached → next.signals u = r.signals u := by
  have clock := Std.ExtTreeMap.getElem?_eq_some_getElem started
  refine ⟨_, by simp only [step, CondState.processSignal, clock, Option.bind_eq_bind, Option.bind_some]; rfl,
    ⟨fun u => ?_, fun u wait info waits found => ?_⟩, fun u => rfl, fun u member id => ?_, fun u other => ?_⟩
  · simp only [Option.isSome_map, Std.ExtTreeMap.mem_map]
    exact linked.waiting u
  · obtain ⟨old, before, rfl⟩ := Option.map_eq_some_iff.mp waits
    simp only [Std.ExtTreeMap.getElem?_map] at found
    obtain ⟨info', before', rfl⟩ := Option.map_eq_some_iff.mp found
    obtain ⟨timed, broadcasted⟩ := linked.info u old info' before before'
    split
    · split
      · exact ⟨timed, broadcasted⟩
      · exact ⟨timed, broadcasted⟩
    · split
      · exact ⟨timed, broadcasted⟩
      · exact ⟨timed, broadcasted⟩
  · obtain ⟨wait, waits, open_⟩ := linked.mem_unreached.mp member
    obtain ⟨info, found, -, broadcasted⟩ := linked.found waits
    rw [open_] at broadcasted
    simp [signals, found, broadcasted, eq_comm (a := id)]
  · cases found : r.state.cond.waitMap[u]? with
    | none => simp [signals, found]
    | some info =>
      have member : u ∈ r.state.cond.waitMap := Std.ExtTreeMap.mem_iff_isSome_getElem?.mpr (by rw [found]; rfl)
      obtain ⟨wait, waits⟩ := Option.isSome_iff_exists.mp ((linked.waiting u).mpr member)
      have broadcasted := (linked.info u wait info waits found).2
      have reached : wait.broadcast = true := by
        by_contra open_
        exact other (linked.mem_unreached.mpr ⟨wait, waits, Bool.eq_false_iff.mpr open_⟩)
      rw [reached] at broadcasted
      simp [signals, found, broadcasted]

/-- A new identifier is pending next to the old ones. -/
theorem pending_insert {new : BitVec 32} (given : ∀ id, id ∈ next.signals u ↔ id = new ∨ id ∈ r.signals u) :
    next.pending u = insert new.toNat (r.pending u) := by
  ext n
  rw [Finset.mem_insert]
  constructor
  · intro member
    obtain ⟨id, has, rfl⟩ := mem_pending member
    rcases (given id).mp has with rfl | before
    · exact Or.inl rfl
    · exact Or.inr (toNat_mem_pending.mpr before)
  · rintro (rfl | member)
    · exact toNat_mem_pending.mpr ((given new).mpr (Or.inl rfl))
    · obtain ⟨id, has, rfl⟩ := mem_pending member
      exact toNat_mem_pending.mpr ((given id).mpr (Or.inr has))

theorem pending_erase {old : BitVec 32} (left : ∀ id, id ∈ next.signals u ↔ id ≠ old ∧ id ∈ r.signals u) :
    next.pending u = (r.pending u).erase old.toNat := by
  ext n
  rw [Finset.mem_erase]
  constructor
  · intro member
    obtain ⟨id, has, rfl⟩ := mem_pending member
    obtain ⟨apart, before⟩ := (left id).mp has
    exact ⟨fun same => apart (BitVec.eq_of_toNat_eq same), toNat_mem_pending.mpr before⟩
  · rintro ⟨apart, member⟩
    obtain ⟨id, has, rfl⟩ := mem_pending member
    exact toNat_mem_pending.mpr ((left id).mpr ⟨fun same => apart (congrArg _ same), has⟩)

theorem Linked.mem_waiters (linked : r.Linked) : u ∈ r.waiters ↔ (r.waits u).isSome = true := by
  rw [CondRun.mem_waiters, linked.waiting]

theorem Inv.signal {released : Option ThreadId} (inv : r.Inv) (allowed : r.Allows (.signal t released))
    (meets : r.Meets (.signal t released)) : ∃ next, r.step (.signal t released) = some next ∧ next.Inv := by
  obtain ⟨next, stepped, linked, waits, given, kept⟩ := signal_spec released inv.toLinked allowed.1
  have above : ∀ u, ∀ id ∈ r.signals u, id < r.state.cond.currSignalId + 1 := by
    intro u id member
    cases found : r.state.cond.waitMap[u]? with
    | none => simp [signals_of_none found] at member
    | some info =>
      rw [signals_of_found found] at member
      have all := meets (u, info) (Std.ExtTreeMap.mem_toList_iff_getElem?_eq_some.mpr found)
      exact of_decide_eq_true (List.all_eq_true.mp all id (Std.ExtTreeMap.mem_keys.mpr member))
  have unreached : next.unreached = r.unreached := by
    ext u
    rw [linked.mem_unreached, inv.mem_unreached, waits]
    simp only [Option.map_eq_some_iff]
    constructor
    · rintro ⟨_, ⟨wait, before, rfl⟩, rest⟩
      refine ⟨wait, before, ?_⟩
      split at rest
      · exact rest
      · exact rest
    · rintro ⟨wait, before, rest⟩
      refine ⟨_, ⟨wait, before, rfl⟩, ?_⟩
      split
      · exact rest
      · exact rest
  have one : next.released ⊆ insert (released.getD 0) r.released := by
    intro u member
    obtain ⟨_, after, signaled, rest⟩ := linked.mem_released.mp member
    rw [waits] at after
    obtain ⟨wait, before, rfl⟩ := Option.map_eq_some_iff.mp after
    split at signaled
    · next own => exact Finset.mem_insert.mpr (Or.inl (by rw [own]; rfl))
    · next other =>
        rw [if_neg other] at rest
        exact Finset.mem_insert_of_mem (inv.mem_released.mpr ⟨wait, before, signaled, rest⟩)
  have subset : next.released ⊆ r.unreached := by
    intro u member
    obtain ⟨wait, after, -, rest⟩ := linked.mem_released.mp member
    rw [← unreached]
    exact linked.mem_unreached.mpr ⟨wait, after, rest⟩
  refine ⟨next, stepped, linked, ?_, fun b member closed u reached id has also => ?_⟩
  · rw [unreached]
    apply inv.enough.issue _ (fun u member => pending_insert (given u member)) subset one
    intro u member n has
    obtain ⟨id, inside, rfl⟩ := mem_pending has
    exact above u id inside
  · rw [unreached] at closed reached
    rw [kept b closed] at has
    rcases (given u reached id).mp also with rfl | before
    · exact absurd (above b _ has) (BitVec.lt_irrefl _)
    · have waiting : b ∈ r.waiters := by
        rw [linked.mem_waiters, waits, Option.isSome_map] at member
        exact inv.mem_waiters.mpr member
      exact inv.apart b waiting closed u reached id has before

theorem Inv.broadcast (inv : r.Inv) (started : t ∈ r.state.currVcMap) :
    ∃ next, r.step (.broadcast t) = some next ∧ next.Inv := by
  have clock := Std.ExtTreeMap.getElem?_eq_some_getElem started
  have stepped : ∃ next, r.step (.broadcast t) = some next ∧ next.Linked ∧
      ∀ u, next.waits u = (r.waits u).map fun wait => { wait with broadcast := true } := by
    refine ⟨_, by simp only [step, CondState.processBroadcast, clock, Option.bind_eq_bind, Option.bind_some]; rfl,
      ⟨fun u => ?_, fun u wait info waits found => ?_⟩, fun u => rfl⟩
    · simp only [Option.isSome_map, Std.ExtTreeMap.mem_map]
      exact inv.waiting u
    · obtain ⟨old, before, rfl⟩ := Option.map_eq_some_iff.mp waits
      simp only [Std.ExtTreeMap.getElem?_map] at found
      obtain ⟨info', before', rfl⟩ := Option.map_eq_some_iff.mp found
      have timed := (inv.info u old info' before before').1
      split
      · next already => exact ⟨timed, already⟩
      · exact ⟨timed, rfl⟩
  obtain ⟨next, stepped, linked, waits⟩ := stepped
  have nobody : ∀ u, u ∉ next.unreached := by
    intro u member
    obtain ⟨wait, after, rest⟩ := linked.mem_unreached.mp member
    rw [waits] at after
    obtain ⟨old, before, rfl⟩ := Option.map_eq_some_iff.mp after
    cases rest
  have empty : next.unreached = ∅ := Finset.eq_empty_of_forall_notMem nobody
  have none : next.released = ∅ := by
    apply Finset.eq_empty_of_forall_notMem
    intro u member
    obtain ⟨wait, after, -, rest⟩ := linked.mem_released.mp member
    exact nobody u (linked.mem_unreached.mpr ⟨wait, after, rest⟩)
  refine ⟨next, stepped, linked, ?_, fun b member closed u reached => absurd reached (nobody u)⟩
  rw [empty, none]
  exact .none

theorem Inv.preWait {timedwait : Bool} (inv : r.Inv) (idle : r.waits t = none) :
    ∃ next, r.step (.preWait t timedwait) = some next ∧ next.Inv := by
  have absent : t ∉ r.state.cond.waitMap := by
    rw [← inv.waiting, idle]
    exact nofun
  have missing := Std.ExtTreeMap.getElem?_eq_none absent
  have stepped : ∃ next, r.step (.preWait t timedwait) = some next ∧
      (∀ u, next.waits u = if u = t then some { timed := timedwait } else r.waits u) ∧
      ∀ u, next.state.cond.waitMap[u]? =
        if t = u then some { timed := timedwait } else r.state.cond.waitMap[u]? :=
    ⟨_, rfl, fun u => rfl, fun u => by simp [CondState.processPreWait, missing]⟩
  obtain ⟨next, stepped, waits, entries⟩ := stepped
  have linked : next.Linked := by
    refine ⟨fun u => ?_, fun u wait info after found => ?_⟩
    · rw [waits, Std.ExtTreeMap.mem_iff_isSome_getElem?, entries]
      by_cases own : u = t
      · simp [own]
      · rw [if_neg own, if_neg (Ne.symm own), inv.waiting, Std.ExtTreeMap.mem_iff_isSome_getElem?]
    · rw [waits] at after
      rw [entries] at found
      by_cases own : u = t
      · rw [if_pos own] at after
        rw [if_pos own.symm] at found
        cases after
        cases found
        exact ⟨rfl, rfl⟩
      · rw [if_neg own] at after
        rw [if_neg (Ne.symm own)] at found
        exact inv.info u wait info after found
  have empty : next.signals t = ∅ := by
    have entry := entries t
    rw [if_pos rfl] at entry
    exact signals_of_found entry
  have others : ∀ u, u ≠ t → next.signals u = r.signals u := fun u other =>
    signals_congr (by rw [entries, if_neg (Ne.symm other)])
  have apart : ∀ u ∈ r.unreached, u ≠ t := by
    rintro u member rfl
    obtain ⟨wait, before, -⟩ := inv.mem_unreached.mp member
    exact nomatch idle.symm.trans before
  have unreached : next.unreached = insert t r.unreached := by
    ext u
    rw [linked.mem_unreached, Finset.mem_insert, inv.mem_unreached, waits]
    by_cases own : u = t
    · simp [own]
    · simp [own]
  have released : next.released = r.released := by
    ext u
    rw [linked.mem_released, inv.mem_released, waits]
    by_cases own : u = t
    · simp [own, idle]
    · simp [own]
  refine ⟨next, stepped, linked, ?_, fun b member closed u reached id has => ?_⟩
  · rw [unreached, released]
    apply (inv.enough.congr fun u member => pending_congr (others u (apart u member))).join
    simp [pending, empty]
  · rw [unreached] at closed reached
    obtain ⟨different, closed⟩ := not_or.mp (fun either => closed (Finset.mem_insert.mpr either))
    rcases Finset.mem_insert.mp reached with rfl | reached
    · simp [empty]
    · rw [others b different] at has
      rw [others u (apart u reached)]
      rw [linked.mem_waiters, waits, if_neg different] at member
      exact inv.apart b (inv.mem_waiters.mpr member) closed u reached id has

/-- A waiter that returns is removed, and the signal it claims is lost to the others. -/
theorem postWait_spec (linked : r.Linked) (started : t ∈ r.state.currVcMap) (waits : r.waits t = some wait)
    (accepted : firstSignal (r.signals t) = none → wait.broadcast = true ∨ wait.timed = true) :
    ∃ next, r.step (.postWait t) = some next ∧ next.Linked ∧
      (∀ u, next.waits u = if u = t then none else r.waits u) ∧
      ∀ u, u ≠ t → ∀ id, id ∈ next.signals u ↔ firstSignal (r.signals t) ≠ some id ∧ id ∈ r.signals u := by
  obtain ⟨info, found, timed, broadcasted⟩ := linked.found waits
  have clock := Std.ExtTreeMap.getElem?_eq_some_getElem started
  rw [signals_of_found found] at accepted ⊢
  have removed : ∃ (next : CondRun) (waitMap : OrdMap ThreadId WaitInfo), r.step (.postWait t) = some next ∧
      (∀ u, next.waits u = if u = t then none else r.waits u) ∧ next.state.cond.waitMap = waitMap.erase t ∧
      ∀ u, waitMap[u]? = r.state.cond.waitMap[u]?.map fun other : WaitInfo =>
        (firstSignal info.signalMap).elim other fun id =>
          if u = t then other else { other with signalMap := other.signalMap.erase id } := by
    cases least : firstSignal info.signalMap with
    | none =>
      rw [least, ← timed, ← broadcasted] at accepted
      by_cases reached : info.broadcasted = true
      · exact ⟨_, r.state.cond.waitMap, by simp [step, CondState.processPostWait, clock, found, least, reached]; rfl,
          fun u => rfl, rfl, fun u => by simp⟩
      · have own := (accepted rfl).resolve_left reached
        exact ⟨_, r.state.cond.waitMap,
          by simp [step, CondState.processPostWait, clock, found, least, reached, debugAssert_pos own]; rfl,
          fun u => rfl, rfl, fun u => by simp⟩
    | some id =>
      have stored := Std.ExtTreeMap.getElem?_eq_some_getElem (firstSignal_mem least)
      exact ⟨_, _, by simp [step, CondState.processPostWait, clock, found, least, stored]; rfl, fun u => rfl, rfl,
        fun u => by simp⟩
  obtain ⟨next, waitMap, stepped, left, erased, entries⟩ := removed
  have entry : ∀ u, u ≠ t → next.state.cond.waitMap[u]? = waitMap[u]? := by
    intro u other
    rw [erased, Std.ExtTreeMap.getElem?_erase]
    simp [Ne.symm other]
  refine ⟨next, stepped, ⟨fun u => ?_, fun u old info' after found' => ?_⟩, left, fun u other id => ?_⟩
  · by_cases own : u = t
    · subst own
      simp [left, erased]
    · rw [left, if_neg own, linked.waiting, Std.ExtTreeMap.mem_iff_isSome_getElem?,
        Std.ExtTreeMap.mem_iff_isSome_getElem?, entry u own, entries, Option.isSome_map]
  · rw [left] at after
    split at after
    · cases after
    · next other =>
        rw [entry u other, entries] at found'
        obtain ⟨before, stored, rfl⟩ := Option.map_eq_some_iff.mp found'
        have same := linked.info u old before after stored
        cases firstSignal info.signalMap with
        | none => exact same
        | some id =>
          rw [Option.elim_some, if_neg other]
          exact same
  · rw [signals, entry u other, entries, signals]
    cases stored : r.state.cond.waitMap[u]? with
    | none => simp
    | some info' =>
      cases least : firstSignal info.signalMap with
      | none => simp
      | some first => simp [other, eq_comm (a := first)]

/-- A waiter without a signal was reached by a broadcast or is a timed one. -/
theorem Inv.accepted (inv : r.Inv) (waits : r.waits t = some wait)
    (may : (wait.timed || wait.signaled || wait.broadcast) = true) (nothing : firstSignal (r.signals t) = none) :
    wait.broadcast = true ∨ wait.timed = true := by
  by_contra! neither
  simp only [ne_eq, Bool.not_eq_true] at neither
  obtain ⟨reached, timed⟩ := neither
  have signaled : wait.signaled = true := by simpa [reached, timed] using may
  obtain ⟨n, member⟩ := inv.enough.nonempty (inv.mem_released.mpr ⟨wait, waits, signaled, reached⟩)
  obtain ⟨id, has, -⟩ := mem_pending member
  rw [firstSignal_none nothing] at has
  exact absurd has Std.ExtTreeMap.not_mem_empty

theorem Inv.postWait (inv : r.Inv) (allowed : r.Allows (.postWait t)) (meets : r.Meets (.postWait t)) :
    ∃ next, r.step (.postWait t) = some next ∧ next.Inv := by
  obtain ⟨started, may⟩ := allowed
  obtain ⟨wait, waits, may⟩ := (Option.any_eq_true _ _).mp may
  obtain ⟨next, stepped, linked, left, remaining⟩ :=
    postWait_spec inv.toLinked started waits (inv.accepted waits may)
  have unreached : next.unreached = r.unreached.erase t := by
    ext u
    rw [linked.mem_unreached, Finset.mem_erase, inv.mem_unreached, left]
    by_cases own : u = t
    · simp [own]
    · simp [own]
  have released : next.released = r.released.erase t := by
    ext u
    rw [linked.mem_released, Finset.mem_erase, inv.mem_released, left]
    by_cases own : u = t
    · simp [own]
    · simp [own]
  have closed_before : ∀ b ∈ next.waiters, b ∉ next.unreached → b ≠ t ∧ b ∈ r.waiters ∧ b ∉ r.unreached := by
    intro b member closed
    rw [linked.mem_waiters, left] at member
    split at member
    · exact nomatch member
    · next other =>
        rw [unreached] at closed
        exact ⟨other, inv.mem_waiters.mpr member, fun reached => closed (Finset.mem_erase.mpr ⟨other, reached⟩)⟩
  refine ⟨next, stepped, linked, ?_, fun b member closed u reached id has => ?_⟩
  · rw [unreached, released]
    by_cases reached : wait.broadcast = true
    · -- A claimed signal is pending only for waiters that the broadcast has reached, too.
      have outside : t ∉ r.unreached := by
        intro member
        obtain ⟨wait', waits', rest⟩ := inv.mem_unreached.mp member
        cases waits.symm.trans waits'
        exact nomatch reached.symm.trans rest
      have unreleased : t ∉ r.released := fun member => outside (inv.enough.subset member)
      rw [Finset.erase_eq_of_notMem outside, Finset.erase_eq_of_notMem unreleased]
      apply inv.enough.congr
      intro u member
      have other : u ≠ t := by
        rintro rfl
        exact outside member
      have waiting : t ∈ r.waiters := inv.mem_waiters.mpr (by rw [waits]; rfl)
      apply pending_of_mem
      intro id
      rw [remaining u other id, and_iff_right_iff_imp]
      exact fun has first => inv.apart t waiting outside u member id (firstSignal_mem first) has
    · have inside : t ∈ r.unreached := inv.mem_unreached.mpr ⟨wait, waits, Bool.eq_false_iff.mpr reached⟩
      cases least : firstSignal (r.signals t) with
      | none =>
        have empty : r.pending t = ∅ := by
          rw [pending, firstSignal_none least]
          rfl
        have needless : t ∉ r.released := fun member => (inv.enough.nonempty member).ne_empty empty
        rw [Finset.erase_eq_of_notMem needless]
        apply (inv.enough.leave empty).congr
        intro u member
        apply pending_of_mem
        intro id
        rw [remaining u (Finset.ne_of_mem_erase member) id, least, and_iff_right_iff_imp]
        exact fun _ => nofun
      | some first =>
        have mine := firstSignal_mem least
        apply inv.enough.claim inside (toNat_mem_pending.mpr mine)
        · intro n has
          obtain ⟨id, also, rfl⟩ := mem_pending has
          exact BitVec.le_def.mp (firstSignal_le least also)
        · intro needless u member has
          have timedOut : r.TimedOut t := by
            have unsignaled : wait.signaled = false := by
              by_contra signaled
              exact needless (inv.mem_released.mpr ⟨wait, waits, Bool.eq_true_of_not_eq_false signaled,
                Bool.eq_false_iff.mpr reached⟩)
            simp [TimedOut, waits, unsignaled, Bool.eq_false_iff.mpr reached]
          have spares := meets timedOut
          rw [Spares, least] at spares
          exact spares u member (toNat_mem_pending.mp has)
        · intro u member other
          exact pending_erase fun id => by rw [remaining u other id, least, ne_eq, Option.some.injEq, eq_comm]
  · obtain ⟨other, waiting, before⟩ := closed_before b member closed
    rw [unreached] at reached
    obtain ⟨apart, reached⟩ := Finset.mem_erase.mp reached
    have lost := inv.apart b waiting before u reached id ((remaining b other id).mp has).2
    exact fun also => lost ((remaining u apart id).mp also).2

theorem Inv.step {c : CondCall} (inv : r.Inv) (allowed : r.Allows c) (meets : r.Meets c) :
    ∃ next, r.step c = some next ∧ next.Inv := by
  match c with
  | .signal t released => exact inv.signal allowed meets
  | .broadcast t => exact inv.broadcast allowed
  | .preWait t timedwait => exact inv.preWait allowed
  | .postWait t => exact inv.postWait allowed meets
  | .other currVcMap =>
    exact ⟨_, rfl, ⟨⟨inv.waiting, inv.info⟩, inv.enough, inv.apart⟩⟩

/-- A call that pthreads allows passes its assertions. -/
theorem Inv.accepts {c : CondCall} (inv : r.Inv) (allowed : r.Allows c) : ∃ next, r.step c = some next := by
  match c with
  | .signal t released =>
    obtain ⟨next, stepped, _⟩ := signal_spec released inv.toLinked allowed.1
    exact ⟨next, stepped⟩
  | .broadcast t =>
    obtain ⟨next, stepped, _⟩ := inv.broadcast allowed
    exact ⟨next, stepped⟩
  | .preWait t timedwait => exact ⟨_, rfl⟩
  | .postWait t =>
    obtain ⟨wait, waits, may⟩ := (Option.any_eq_true _ _).mp allowed.2
    obtain ⟨next, stepped, _⟩ := postWait_spec inv.toLinked allowed.1 waits (inv.accepted waits may)
    exact ⟨next, stepped⟩
  | .other currVcMap => exact ⟨_, rfl⟩

/-- In every run in which a wait that times out claims no signal that is needed, and
identifiers of signals are not reused too early, all waits are accepted. -/
theorem waits_accepted {c : CondCall}
    (reached : Runs.Reach Initial (fun r c => r.Allows c ∧ r.Meets c) step r) (allowed : r.Allows c) :
    ∃ next, r.step c = some next := by
  have inv := reached.invariant Inv (fun _ => inv_initial) fun r c next inv both stepped => by
    obtain ⟨next', stepped', kept⟩ := inv.step both.1 both.2
    cases stepped.symm.trans stepped'
    exact kept
  exact inv.accepts allowed

/-- Three threads that have started. -/
def started : CondRun where
  state := { currVcMap := ((∅ : OrdMap ThreadId VectorClock).insert 1 {}).insert 2 {} |>.insert 3 {} }

theorem initial_started : Initial started := ⟨_, rfl⟩

/-- The timed wait of thread 1 claims the signal that released thread 2. -/
theorem timeout_steals : ∃ r c, Runs.Reach Initial Allows step r ∧ r.Allows c ∧ r.step c = none := by
  have stolen : (Runs.follow Allows step started
      [.preWait 1 true, .preWait 2 false, .signal 3 (some 2), .postWait 1]).any (fun r =>
        decide (r.Allows (.postWait 2)) && (r.step (.postWait 2)).isNone) = true := by
    decide +kernel
  obtain ⟨r, reached, passed⟩ := Runs.Reach.of_follow initial_started _ stolen
  obtain ⟨allowed, fails⟩ := Bool.and_eq_true_iff.mp passed
  exact ⟨r, .postWait 2, reached, of_decide_eq_true allowed, Option.isNone_iff_eq_none.mp fails⟩

/-- With one more signal it is harmless. -/
theorem waits_accepted_spare : ∃ r next, step r (.postWait 2) = some next := by
  have spared : (Runs.follow (fun r c => Allows r c ∧ Meets r c) step started
      [.preWait 1 true, .preWait 2 false, .signal 3 (some 2), .signal 3 none, .postWait 1]).any (fun r =>
        decide (r.Allows (.postWait 2))) = true := by
    decide +kernel
  obtain ⟨r, reached, passed⟩ := Runs.Reach.of_follow initial_started _ spared
  exact ⟨r, waits_accepted reached (of_decide_eq_true passed)⟩

end Maple.Idiom.CondRun
