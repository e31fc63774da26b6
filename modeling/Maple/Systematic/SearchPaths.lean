import Maple.Lib.DepthFirst
import Maple.Systematic.SearchNodes

/-! The executions of a deterministic program as paths of a tree. The same schedule leads
every process to the same decisions, although their maps are ordered differently. -/
namespace Maple.Systematic

theorem Scheduler.ofAction_setCounters (s : Scheduler) (a : Action) :
    ActionInfo.ofAction (s.setCounters a) = ActionInfo.ofAction a := by
  unfold setCounters
  split <;> rfl

theorem Scheduler.thd_setCounters (s : Scheduler) (a : Action) : (s.setCounters a).thd = a.thd :=
  congrArg ActionInfo.thd (s.ofAction_setCounters a)

namespace Deterministic

/-- Some action of the thread is enabled. -/
def Enables (prog : Deterministic) (σ : List Thread) (t : Thread) : Prop := ∃ a ∈ prog.enabled 0 σ, a.thd = t

/-- No schedule goes on forever. -/
def Terminates (prog : Deterministic) : Prop :=
  ∀ f : ℕ → Thread, ∃ n, ¬ prog.Enables ((List.range n).map f) (f n)

/-- The registry finds what the actions name, and accesses have an instruction if they are hashed. -/
structure Known (prog : Deterministic) (r : Registry) (k : Knobs) : Prop where
  named : ∀ σ, ∀ a ∈ prog.enabled 0 σ, SearchInfo.Named r (.ofAction a)
  hashable : k.por = true → ∀ σ, ∀ a ∈ prog.enabled 0 σ, Por.Hashable a

variable {prog : Deterministic} {run : ℕ} {σ : List Thread} {t : Thread}

end Deterministic

namespace Explored

/-- One round of `Explore` in which the thread is chosen. -/
def advance (ids : Ids) (k : Knobs) (prog : Deterministic) (run : ℕ) (e : Explored) (t : Thread) : Option Explored := do
  let e ← e.arrive k
  e.take ids k prog run (← e.chess.currState.findEnabled t)

/-- The execution of a schedule. -/
def replay (ids : Ids) (k : Knobs) (prog : Deterministic) (run : ℕ) (info : PorInfo) (σ : List Thread) :
    Option Explored :=
  σ.foldlM (advance ids k prog run) (start prog run info)

/-- Checks 1) and 2) of `PickNext`. -/
def permits (k : Knobs) (e : Explored) (a : Action) : Bool :=
  (!k.fair || e.fairEnabled a) && (!k.pb || e.pbEnabled k a)

/-- The state of an execution is the one of its schedule. -/
structure Follows (ids : Ids) (k : Knobs) (prog : Deterministic) (run : ℕ) (info : PorInfo) (σ : List Thread)
    (e : Explored) : Prop where
  schedule : e.schedule = σ
  enabled : e.chess.currState.enabled = (prog.enabled run σ).map e.chess.counters.setCounters
  taken : ∀ s ∈ e.chess.past, s.taken ≠ none
  consistent : k.por = true → PorRun.Consistent ids k.pb ⟨info, e.chess⟩

variable {ids : Ids} {r : Registry} {k : Knobs} {prog : Deterministic} {run : ℕ} {info : PorInfo}
  {σ : List Thread} {e : Explored} {a : Action} {t : Thread}

section Follows

theorem Follows.threads (follows : Follows ids k prog run info σ e) :
    e.chess.currState.enabled.map (·.thd) = (prog.enabled run σ).map (·.thd) := by
  rw [follows.enabled, List.map_map]
  exact List.map_congr_left fun a _ => Scheduler.thd_setCounters _ a

theorem Follows.distinct (follows : Follows ids k prog run info σ e) : e.chess.currState.Distinct := by
  rw [State.Distinct, follows.threads]
  exact prog.distinct run σ

theorem Follows.agree (follows : Follows ids k prog run info σ e) :
    SearchInfo.Agree e.chess.currState { enabled := prog.enabled 0 σ } := by
  have same : e.chess.currState.enabled.map ActionInfo.ofAction = (prog.enabled run σ).map ActionInfo.ofAction := by
    rw [follows.enabled, List.map_map]
    exact List.map_congr_left fun a _ => Scheduler.ofAction_setCounters _ a
  rw [SearchInfo.Agree, same]
  exact (prog.same run σ).map _

theorem Follows.enables_iff (follows : Follows ids k prog run info σ e) :
    prog.Enables σ t ↔ ∃ a, e.chess.currState.findEnabled t = some a := by
  have listed : prog.Enables σ t ↔ t ∈ e.chess.currState.enabled.map (·.thd) := by
    rw [follows.threads, ((prog.same run σ).map _).mem_iff]
    simp [Deterministic.Enables]
  rw [listed, List.mem_map]
  exact exists_congr fun a => follows.distinct.findEnabled_iff.symm

theorem follows_start (ids : Ids) (k : Knobs) (prog : Deterministic) (run : ℕ) (info : PorInfo)
    (stored : k.por = true → ∀ vs ∈ info.visited, vs.execId ≤ info.numExecs ∧
      Por.Recorded ids k.pb (info.porGetExec vs.execId) vs) : Follows ids k prog run info [] (start prog run info) where
  schedule := rfl
  enabled := rfl
  taken := by simp [start, ChessScheduler.programStart]
  consistent on := PorRun.consistent_start _ (stored on)

theorem arrive_spec (follows : Follows ids k prog run info σ e) :
    ∃ fairCtrl, e.arrive k = some { e with fairCtrl } ∧ Follows ids k prog run info σ { e with fairCtrl } := by
  have kept (fairCtrl : FairControl) : Follows ids k prog run info σ { e with fairCtrl } :=
    ⟨follows.schedule, follows.enabled, follows.taken, follows.consistent⟩
  cases on : k.fair with
  | false => exact ⟨e.fairCtrl, by simp [arrive, on], kept _⟩
  | true =>
    cases last : e.chess.past.head? with
    | none => exact ⟨e.fairCtrl, by simp [arrive, on, fairUpdate, last, FairControl.update], kept _⟩
    | some prev =>
      obtain ⟨b, taken⟩ := Option.ne_none_iff_exists'.mp (follows.taken prev (List.mem_of_head? last))
      exact ⟨_, by simp [arrive, on, fairUpdate, last, FairControl.update, taken]; rfl, kept _⟩

theorem porUpdate_spec (c : ChessScheduler) (hashable : Por.Hashable a) :
    ∃ currHashVal currVisitedStates, c.porUpdate ids a = some { c with currHashVal, currVisitedStates } := by
  cases object : a.obj with
  | none => exact ⟨c.currHashVal, c.currVisitedStates, by simp [ChessScheduler.porUpdate, object]⟩
  | some o =>
    obtain ⟨inst, found⟩ := Option.ne_none_iff_exists'.mp (hashable (by simp [object]))
    obtain ⟨h, hashed⟩ : ∃ h, hash ids a = some h := by
      rw [hash, object, found]
      exact ⟨_, rfl⟩
    exact ⟨_, _, by rw [ChessScheduler.porUpdate, object, hashed]; rfl⟩

/-- The counters that `Execute` stores. -/
def stored (e : Explored) (a : Action) : Scheduler := (e.chess.counters.execute e.chess.currState a {}).2.1

def preemptionsAfter (k : Knobs) (e : Explored) (a : Action) : ℕ :=
  if k.pb && e.isPreemptive a then e.chess.currPreemptions + 1 else e.chess.currPreemptions

/-- What `take` does to the members that do not serve partial order reduction. -/
structure Taken (k : Knobs) (e : Explored) (a : Action) (next : Explored) : Prop where
  fairCtrl : next.fairCtrl = e.fairCtrl
  counters : next.chess.counters = e.stored a
  past : next.chess.past = { e.chess.currState with taken := some a } :: e.chess.past
  currAction : next.chess.currAction = some a
  currPreemptions : next.chess.currPreemptions = e.preemptionsAfter k a

theorem take_spec (follows : Follows ids k prog run info σ e) (hashable : k.por = true → Por.Hashable a) :
    ∃ next, e.take ids k prog run a = some next ∧ Taken k e a next ∧
      Follows ids k prog run info (σ ++ [a.thd]) next := by
  have counted : (if k.pb then e.chess.pbUpdate a else e.chess) =
      { e.chess with currPreemptions := e.preemptionsAfter k a } := by
    cases on : k.pb with
    | false => simp only [preemptionsAfter, on, Bool.false_and, Bool.false_eq_true, if_false]
    | true =>
      simp only [if_true, ChessScheduler.pbUpdate, preemptionsAfter, isPreemptive, on, Bool.true_and]
      split
      · rfl
      · rfl
  obtain ⟨h, v, updated⟩ : ∃ currHashVal currVisitedStates,
      (if k.por then (if k.pb then e.chess.pbUpdate a else e.chess).porUpdate ids a
        else pure (if k.pb then e.chess.pbUpdate a else e.chess)) =
      some { e.chess with currPreemptions := e.preemptionsAfter k a, currHashVal, currVisitedStates } := by
    rw [counted]
    cases on : k.por with
    | false => exact ⟨e.chess.currHashVal, e.chess.currVisitedStates, rfl⟩
    | true => exact porUpdate_spec _ (hashable on)
  let next : Explored := { e with chess := { e.chess with
    counters := e.stored a
    past := { e.chess.currState with taken := some a } :: e.chess.past
    currAction := some a
    currPreemptions := e.preemptionsAfter k a
    currState := (e.stored a).setActionCounters { enabled := prog.enabled run (e.schedule ++ [a.thd]) }
    currHashVal := h
    currVisitedStates := v } }
  have took : e.take ids k prog run a = some next := by
    rw [take]
    cases on : k.por with
    | false =>
      rw [on, if_neg Bool.false_ne_true] at updated
      rw [Option.some.inj updated]
      rfl
    | true =>
      rw [on, if_pos rfl] at updated
      rw [if_pos rfl, updated]
      rfl
  refine ⟨next, took, ⟨rfl, rfl, rfl, rfl, rfl⟩, ⟨?_, ?_, ?_, fun on => ?_⟩⟩
  · simp [next, schedule, ← follows.schedule]
  · simp [next, Scheduler.setActionCounters, follows.schedule]
  · intro s member
    rcases List.mem_cons.mp member with rfl | older
    · simp
    · exact follows.taken s older
  · suffices explored : e.chess.explore ids k.pb a { enabled := prog.enabled run (e.schedule ++ [a.thd]) } =
        some next.chess from (follows.consistent on).take explored
    rw [on, if_pos rfl] at updated
    rw [ChessScheduler.explore, updated]
    rfl

end Follows

section Replay

theorem replay_append (σ τ : List Thread) : replay ids k prog run info (σ ++ τ) =
    (replay ids k prog run info σ).bind fun e => τ.foldlM (advance ids k prog run) e := List.foldlM_append

theorem advance_spec (known : prog.Known r k) (follows : Follows r.toIds k prog run info σ e)
    (enables : prog.Enables σ t) : ∃ here a next, e.arrive k = some here ∧ Follows r.toIds k prog run info σ here ∧
      here.chess.currState.findEnabled t = some a ∧ here.take r.toIds k prog run a = some next ∧
      Taken k here a next ∧ e.advance r.toIds k prog run t = some next ∧
      Follows r.toIds k prog run info (σ ++ [t]) next := by
  obtain ⟨fairCtrl, arrived, there⟩ := arrive_spec follows
  obtain ⟨a, found⟩ := there.enables_iff.mp enables
  obtain ⟨member, rfl⟩ := there.distinct.findEnabled_iff.mp found
  have hashable (on : k.por = true) : Por.Hashable a := by
    obtain ⟨b, listed, same⟩ := List.mem_map.mp (there.agree.subset (List.mem_map_of_mem member))
    simp only [ActionInfo.ofAction, ActionInfo.mk.injEq] at same
    obtain ⟨_, obj, _, inst⟩ := same
    intro object missing
    exact known.hashable on σ b listed (obj ▸ object) (inst ▸ missing)
  obtain ⟨next, took, taken, later⟩ := take_spec there hashable
  refine ⟨_, a, next, arrived, there, found, took, taken, ?_, later⟩
  rw [advance, arrived, Option.bind_eq_bind, Option.bind_some, found]
  exact took

/-- The states on disk are states of the executions on disk. -/
def Sound (ids : Ids) (k : Knobs) (info : PorInfo) : Prop :=
  k.por = true → ∀ vs ∈ info.visited, vs.execId ≤ info.numExecs ∧
    Por.Recorded ids k.pb (info.porGetExec vs.execId) vs

theorem replay_spec (run : ℕ) (known : prog.Known r k) (sound : Sound r.toIds k info) (path : DepthFirst.Path prog.Enables σ) :
    ∃ e, replay r.toIds k prog run info σ = some e ∧ Follows r.toIds k prog run info σ e := by
  induction path with
  | nil => exact ⟨_, rfl, follows_start _ _ _ _ _ sound⟩
  | @snoc σ t path enables ih =>
    obtain ⟨e, replayed, follows⟩ := ih
    obtain ⟨_, _, next, _, _, _, _, _, advanced, later⟩ := advance_spec known follows enables
    exact ⟨next, by simp [replay_append, replayed, advanced], later⟩

end Replay

end Explored

/-- The order of the maps does not matter to the fair control. -/
theorem FairControl.update_congr (c : FairControl) {prev prev' : Option State} {curr curr' : State}
    (last : Option.Rel (fun s s' => s.enabled.Perm s'.enabled ∧ s.taken = s'.taken) prev prev')
    (same : curr.enabled.Perm curr'.enabled) : c.update prev curr = c.update prev' curr' := by
  have enabled : curr.isEnabled = curr'.isEnabled := funext fun t => State.isEnabled_perm same
  cases last with
  | none => rfl
  | @some s s' alike =>
    obtain ⟨perm, taken⟩ := alike
    have advanced (t : Thread) : c.advance s curr t = c.advance s' curr' t := by
      have inserted (du : ThreadSet) : du.insertMany ((s.enabled.map (·.thd)).filter fun v => !curr'.isEnabled v) =
          du.insertMany ((s'.enabled.map (·.thd)).filter fun v => !curr'.isEnabled v) := by
        apply Std.ExtTreeSet.ext_mem
        intro v
        rw [Std.ExtTreeSet.mem_insertMany_list, Std.ExtTreeSet.mem_insertMany_list, List.contains_iff_mem,
          List.contains_iff_mem, ((perm.map _).filter _).mem_iff]
      simp only [FairControl.advance, enabled, inserted]
    have yielded (c : FairControl) (t : Thread) : c.yield curr t = c.yield curr' t := by
      have listed : Std.ExtTreeSet.ofList (curr.enabled.map (·.thd)) = Std.ExtTreeSet.ofList (curr'.enabled.map (·.thd)) := by
        apply Std.ExtTreeSet.ext_mem
        intro v
        rw [Std.ExtTreeSet.mem_ofList, Std.ExtTreeSet.mem_ofList, List.contains_iff_mem, List.contains_iff_mem,
          (same.map _).mem_iff]
      simp only [FairControl.yield, listed]
    simp only [FairControl.update, taken, advanced, yielded]

namespace Explored
variable {r : Registry} {k : Knobs} {prog : Deterministic} {run run' : ℕ} {info info' : PorInfo}
  {σ : List Thread} {e e' here here' next next' : Explored} {a : Action} {t : Thread}

/-- What two processes agree on after the same schedule. -/
structure Alike (e e' : Explored) : Prop where
  fairCtrl : e.fairCtrl = e'.fairCtrl
  counters : e.chess.counters = e'.chess.counters
  currAction : e.chess.currAction = e'.chess.currAction
  currPreemptions : e.chess.currPreemptions = e'.chess.currPreemptions
  curr : e.chess.currState.enabled.Perm e'.chess.currState.enabled
  last : Option.Rel (fun s s' => s.enabled.Perm s'.enabled ∧ s.taken = s'.taken) e.chess.past.head? e'.chess.past.head?

theorem Alike.isPreemptive (alike : Alike e e') (a : Action) : e.isPreemptive a = e'.isPreemptive a := by
  unfold Explored.isPreemptive isPreemptiveChoice
  rw [alike.currAction]
  split
  · rfl
  · rw [State.isEnabled_perm alike.curr]

theorem Alike.permits (alike : Alike e e') (a : Action) : e.permits k a = e'.permits k a := by
  have enabled : e.chess.currState.isEnabled = e'.chess.currState.isEnabled :=
    funext fun t => State.isEnabled_perm alike.curr
  simp only [Explored.permits, fairEnabled, FairControl.enabled, alike.fairCtrl, enabled, pbEnabled,
    alike.isPreemptive, alike.currPreemptions]

theorem Alike.arrive (alike : Alike e e') (arrived : e.arrive k = some here) (arrived' : e'.arrive k = some here') :
    Alike here here' := by
  cases on : k.fair with
  | false =>
    simp only [Explored.arrive, on, Bool.false_eq_true, if_false, Option.pure_def, Option.some.injEq] at arrived arrived'
    exact arrived ▸ arrived' ▸ alike
  | true =>
    simp only [Explored.arrive, on, if_true, fairUpdate, Option.bind_eq_bind, Option.bind_eq_some_iff, Option.pure_def,
      Option.some.injEq] at arrived arrived'
    obtain ⟨c, updated, rfl⟩ := arrived
    obtain ⟨c', updated', rfl⟩ := arrived'
    rw [alike.fairCtrl, FairControl.update_congr _ alike.last alike.curr, updated', Option.some.injEq] at updated
    exact ⟨updated.symm, alike.counters, alike.currAction, alike.currPreemptions, alike.curr, alike.last⟩

theorem Alike.take (alike : Alike e e') (taken : Taken k e a next) (taken' : Taken k e' a next')
    (follows : Follows r.toIds k prog run info σ next) (follows' : Follows r.toIds k prog run' info' σ next') :
    Alike next next' := by
  have counters : next.chess.counters = next'.chess.counters := by
    rw [taken.counters, taken'.counters]
    simp only [stored, Scheduler.execute, alike.counters]
  refine ⟨?_, counters, ?_, ?_, ?_, ?_⟩
  · rw [taken.fairCtrl, taken'.fairCtrl, alike.fairCtrl]
  · rw [taken.currAction, taken'.currAction]
  · simp only [taken.currPreemptions, taken'.currPreemptions, preemptionsAfter, alike.isPreemptive, alike.currPreemptions]
  · rw [follows.enabled, follows'.enabled, counters]
    exact ((prog.same run σ).trans (prog.same run' σ).symm).map _
  · rw [taken.past, taken'.past]
    exact .some ⟨alike.curr, rfl⟩

/-- The same schedule, in two processes. -/
theorem replay_alike (known : prog.Known r k) (sound : Sound r.toIds k info) (sound' : Sound r.toIds k info')
    (path : DepthFirst.Path prog.Enables σ) (replayed : replay r.toIds k prog run info σ = some e)
    (replayed' : replay r.toIds k prog run' info' σ = some e') : Alike e e' := by
  induction path generalizing e e' with
  | nil =>
    cases replayed
    cases replayed'
    exact ⟨rfl, rfl, rfl, rfl, ((prog.same run []).trans (prog.same run' []).symm).map _, .none⟩
  | @snoc σ t path enables ih =>
    obtain ⟨before, first, follows⟩ := replay_spec run known sound path
    obtain ⟨before', first', follows'⟩ := replay_spec run' known sound' path
    obtain ⟨here, a, next, arrived, there, found, _, taken, advanced, later⟩ := advance_spec known follows enables
    obtain ⟨here', a', next', arrived', there', found', _, taken', advanced', later'⟩ :=
      advance_spec known follows' enables
    simp only [replay_append, first, first', Option.bind_some, List.foldlM_cons, List.foldlM_nil, advanced, advanced',
      Option.bind_eq_bind, Option.pure_def, Option.some.injEq] at replayed replayed'
    have alike := (ih first first').arrive arrived arrived'
    have same : a = a' := by
      rw [there.distinct.findEnabled_perm alike.curr, found', Option.some.injEq] at found
      exact found.symm
    subst same
    exact replayed ▸ replayed' ▸ alike.take taken taken' later later'

/-- The thread is enabled, and checks 1) and 2) let its action pass. -/
def Allowed (r : Registry) (k : Knobs) (prog : Deterministic) (σ : List Thread) (t : Thread) : Prop :=
  ∃ e here a, replay r.toIds k prog 0 {} σ = some e ∧ e.arrive k = some here ∧
    here.chess.currState.findEnabled t = some a ∧ here.permits k a = true

theorem sound_empty (r : Registry) (k : Knobs) : Sound r.toIds k {} := by simp [Sound]

/-- Every process decides alike. -/
theorem allowed_iff (known : prog.Known r k) (sound : Sound r.toIds k info) (path : DepthFirst.Path prog.Enables σ)
    (replayed : replay r.toIds k prog run info σ = some e) (arrived : e.arrive k = some here)
    (found : here.chess.currState.findEnabled t = some a) : Allowed r k prog σ t ↔ here.permits k a = true := by
  obtain ⟨first, replayed₀, follows₀⟩ := replay_spec 0 known (sound_empty r k) path
  obtain ⟨fairCtrl, arrived₀, follows₀⟩ := arrive_spec follows₀
  have alike := (replay_alike known (sound_empty r k) sound path replayed₀ replayed).arrive arrived₀ arrived
  have found₀ := (follows₀.distinct.findEnabled_perm alike.curr).trans found
  constructor
  · rintro ⟨e', here', a', replayed', arrived', found', permitted⟩
    cases replayed₀.symm.trans replayed'
    cases arrived₀.symm.trans arrived'
    cases found₀.symm.trans found'
    rwa [← alike.permits]
  · intro permitted
    exact ⟨_, _, a, replayed₀, arrived₀, found₀, (alike.permits a).trans permitted⟩

theorem Allowed.enables (known : prog.Known r k) (path : DepthFirst.Path prog.Enables σ)
    (allowed : Allowed r k prog σ t) : prog.Enables σ t := by
  obtain ⟨e, here, a, replayed, arrived, found, _⟩ := allowed
  obtain ⟨e', replayed', follows⟩ := replay_spec 0 known (sound_empty r k) path
  cases replayed.symm.trans replayed'
  obtain ⟨fairCtrl, arrived', follows⟩ := arrive_spec follows
  cases arrived.symm.trans arrived'
  exact follows.enables_iff.mpr ⟨a, found⟩

end Explored
end Maple.Systematic
