import Maple.Lib.Commutation
import Maple.Systematic.Program

/-! The counters of `systematic/scheduler.cc`. An executed action on an object gets a
label that counts the actions of its thread and the writes to its object; the labels
of an execution determine it up to the order of independent actions. Counters are
bounded by the number of actions that an execution keeps in memory. -/
namespace Maple.Systematic

/-- `tc_map_` and `oc_map_`, where a missing counter is zero. -/
structure Scheduler where
  tcMap : OrdMap Thread ℕ := ∅
  ocMap : OrdMap Object ℕ := ∅

namespace Scheduler

def getThreadCounter (s : Scheduler) (thd : Thread) : ℕ := s.tcMap[thd]?.getD 0
def getObjectCounter (s : Scheduler) (obj : Object) : ℕ := s.ocMap[obj]?.getD 0

/-- The body of the loop in `SetActionCounters`. -/
def setCounters (s : Scheduler) (action : Action) : Action :=
  match action.obj with
  | none => action
  | some obj => { action with
      tc := s.getThreadCounter action.thd + 1
      oc := if action.isWrite then s.getObjectCounter obj + 1 else s.getObjectCounter obj }

def setActionCounters (s : Scheduler) (state : State) : State :=
  { state with enabled := state.enabled.map s.setCounters }

/-- `Execute`, where the controller has returned the given state: the state left
behind, the scheduler and the next state. -/
def execute (s : Scheduler) (state : State) (action : Action) (returned : State) :
    State × Scheduler × State :=
  let stored : Scheduler := match action.obj with
    | none => s
    | some obj => ⟨s.tcMap.insert action.thd action.tc, s.ocMap.insert obj action.oc⟩
  ({ state with taken := some action }, stored, stored.setActionCounters returned)

/-- Runs of `Execute`. Each action is enabled, and the controller may return any state. -/
inductive Takes : Scheduler → State → List Action → Prop
  | done (s : Scheduler) (state : State) : Takes s state []
  | take {s : Scheduler} {state : State} {action : Action} {actions : List Action} (returned : State)
      (enabled : action ∈ state.enabled)
      (rest : Takes (s.execute state action returned).2.1 (s.execute state action returned).2.2 actions) :
      Takes s state (action :: actions)

/-- `Main`: the executions from an initial state. -/
def Main (init : State) (actions : List Action) : Prop :=
  Takes {} (({} : Scheduler).setActionCounters init) actions

end Scheduler

/-- What an action on an object does. -/
structure Step where
  thd : Thread
  obj : Object
  op : Operation
  inst : Option InstId
  deriving DecidableEq

def Step.isWrite (e : Step) : Bool := e.op ≠ .memRead

/-- Steps whose order does not matter. -/
def Step.Independent (e f : Step) : Prop :=
  e.thd ≠ f.thd ∧ (e.obj ≠ f.obj ∨ e.op = .memRead ∧ f.op = .memRead)

theorem Step.Independent.symm (e f : Step) (apart : e.Independent f) : f.Independent e := by
  obtain ⟨threads, objects⟩ := apart
  exact ⟨threads.symm, objects.imp Ne.symm And.symm⟩

structure Label extends Step where
  tc : ℕ
  oc : ℕ
  deriving DecidableEq

/-- The step of an action; transparent actions have none. -/
def Action.step (a : Action) : Option Step := a.obj.map fun obj => ⟨a.thd, obj, a.op, a.inst⟩

def Action.label (a : Action) : Option Label := a.step.map fun e => ⟨e, a.tc, a.oc⟩

/-- Steps of each thread and writes of each object so far. -/
@[ext] structure Counts where
  thread : Thread → ℕ
  object : Object → ℕ

namespace Counts

def next (c : Counts) (e : Step) : Counts where
  thread := Function.update c.thread e.thd (c.thread e.thd + 1)
  object := Function.update c.object e.obj (c.object e.obj + if e.isWrite then 1 else 0)

def label (c : Counts) (e : Step) : Label :=
  ⟨e, c.thread e.thd + 1, c.object e.obj + if e.isWrite then 1 else 0⟩

variable {c : Counts} {e f : Step} {w : List Step} {t : Thread} {o : Object}

theorem object_next (c : Counts) (e : Step) (o : Object) :
    (c.next e).object o = c.object o + if e.obj = o ∧ e.isWrite = true then 1 else 0 := by
  by_cases same : e.obj = o
  · subst same
    simp [next]
  · simp [next, same, Function.update_of_ne (Ne.symm same)]

theorem thread_next (c : Counts) (e : Step) (t : Thread) :
    (c.next e).thread t = c.thread t + if e.thd = t then 1 else 0 := by
  by_cases same : e.thd = t
  · subst same
    simp [next]
  · simp [next, same, Function.update_of_ne (Ne.symm same)]

theorem commutes : Commutation.Commutes next label Step.Independent := by
  rintro c e f ⟨threads, objects⟩
  have unwritten : ∀ e f : Step, e.obj ≠ f.obj ∨ e.op = .memRead ∧ f.op = .memRead →
      ¬ (e.obj = f.obj ∧ e.isWrite = true) := by
    rintro e f objects ⟨same, writes⟩
    rcases objects with other | ⟨read, -⟩
    · exact other same
    · simp [Step.isWrite, read] at writes
  refine ⟨?_, ?_, ?_⟩
  · simp [label, thread_next, object_next, threads, unwritten e f objects]
  · obtain ⟨threads', objects'⟩ := Step.Independent.symm e f ⟨threads, objects⟩
    simp [label, thread_next, object_next, threads', unwritten f e objects']
  · ext x
    · simp only [thread_next]
      omega
    · simp only [object_next]
      omega

theorem thread_le (c : Counts) (w : List Step) (t : Thread) : c.thread t ≤ (w.foldl next c).thread t := by
  induction w generalizing c with
  | nil => exact Nat.le_refl _
  | cons e w ih =>
    have first := thread_next c e t
    have rest := ih (c.next e)
    simp only [List.foldl_cons]
    omega

theorem object_le (c : Counts) (w : List Step) (o : Object) : c.object o ≤ (w.foldl next c).object o := by
  induction w generalizing c with
  | nil => exact Nat.le_refl _
  | cons e w ih =>
    have first := object_next c e o
    have rest := ih (c.next e)
    simp only [List.foldl_cons]
    omega

/-- A step of a thread moves its counter. -/
theorem thread_lt (c : Counts) (member : e ∈ w) : c.thread e.thd < (w.foldl next c).thread e.thd := by
  obtain ⟨x, y, rfl⟩ := List.append_of_mem member
  have before := thread_le c x e.thd
  have here := thread_next (x.foldl next c) e e.thd
  have after := thread_le ((x.foldl next c).next e) y e.thd
  simp only [if_true] at here
  simp only [List.foldl_append, List.foldl_cons]
  omega

theorem object_lt (c : Counts) (member : e ∈ w) (writes : e.isWrite = true) :
    c.object e.obj < (w.foldl next c).object e.obj := by
  obtain ⟨x, y, rfl⟩ := List.append_of_mem member
  have before := object_le c x e.obj
  have here := object_next (x.foldl next c) e e.obj
  have after := object_le ((x.foldl next c).next e) y e.obj
  simp only [writes, and_self, if_true] at here
  simp only [List.foldl_append, List.foldl_cons]
  omega

/-- Behind a first step that writes, no step on its object has the old count. -/
theorem exposes : Commutation.Exposes next label Step.Independent := by
  intro c a u v perm
  obtain ⟨x, b, y, rfl, same⟩ := Commutation.mem_stamps (perm.subset List.mem_cons_self)
  simp only [label, Label.mk.injEq] at same
  obtain ⟨rfl, threads, objects⟩ := same
  refine ⟨x, y, rfl, fun b member => ⟨fun own => ?_, ?_⟩⟩
  · have moved := thread_lt c member
    rw [own] at moved
    omega
  · by_cases shared : b.obj = a.obj
    · right
      have reads : b.isWrite = false := by
        by_contra writes
        have moved := object_lt c member (by simpa using writes)
        rw [shared] at moved
        omega
      refine ⟨by simpa [Step.isWrite] using reads, ?_⟩
      by_contra writes
      obtain ⟨x₁, x₂, rfl⟩ := List.append_of_mem member
      have found : label (x₁.foldl next c) b ∈ Commutation.stamps next label c (a :: u) := by
        apply perm.symm.subset
        rw [List.append_assoc, List.cons_append]
        exact Commutation.stamp_mem c x₁ b _
      rcases List.mem_cons.mp found with first | later
      · simp only [label, Label.mk.injEq] at first
        rw [first.1] at reads
        exact writes (by simpa [Step.isWrite] using reads)
      · obtain ⟨z, d, _, -, stamped⟩ := Commutation.mem_stamps later
        simp only [label, Label.mk.injEq] at stamped
        obtain ⟨rfl, -, counts⟩ := stamped
        have counted := object_next c a a.obj
        have after := object_le (c.next a) z a.obj
        have before := object_le c x₁ a.obj
        have inside := object_le (x₁.foldl next c) (b :: x₂) a.obj
        simp only [List.foldl_append] at objects
        simp only [Step.isWrite, writes, ne_eq, not_false_eq_true, decide_true, and_self, if_true] at counted
        rw [shared] at counts
        simp only [reads] at counts
        omega
    · exact Or.inl shared

end Counts

namespace Scheduler
variable {s : Scheduler} {state init : State} {action : Action} {actions : List Action} {e : Step}

/-- The counters that the maps stand for. -/
def counts (s : Scheduler) : Counts := ⟨s.getThreadCounter, s.getObjectCounter⟩

/-- Enabled actions carry the counters that they would get. -/
def Prepared (s : Scheduler) (state : State) : Prop := ∀ a ∈ state.enabled, s.setCounters a = a

theorem setCounters_setCounters (s : Scheduler) (a : Action) :
    s.setCounters (s.setCounters a) = s.setCounters a := by
  unfold setCounters
  cases acts : a.obj with
  | none => simp [acts]
  | some obj => simp [Action.isWrite]

theorem setActionCounters_prepared (s : Scheduler) (state : State) :
    s.Prepared (s.setActionCounters state) := by
  intro a member
  obtain ⟨b, -, rfl⟩ := List.mem_map.mp member
  exact setCounters_setCounters s b

theorem counters_of_set (set : s.setCounters action = action) {obj : Object}
    (acts : action.obj = some obj) : action.tc = s.getThreadCounter action.thd + 1 ∧
      action.oc = s.getObjectCounter obj + if action.isWrite then 1 else 0 := by
  simp only [setCounters, acts] at set
  constructor
  · exact (congrArg Action.tc set).symm
  · have stored : action.oc = if action.isWrite then s.getObjectCounter obj + 1 else s.getObjectCounter obj :=
      (congrArg Action.oc set).symm
    rw [stored]
    split
    · rfl
    · rfl

theorem label_of_set (set : s.setCounters action = action) (acts : action.step = some e) :
    action.label = some (s.counts.label e) := by
  obtain ⟨obj, found, rfl⟩ := Option.map_eq_some_iff.mp acts
  obtain ⟨tc, oc⟩ := counters_of_set set found
  rw [Action.label, acts, Option.map_some, tc, oc]
  rfl

/-- `Execute` stores the counters of the action. -/
theorem counts_execute (set : s.setCounters action = action) (acts : action.step = some e)
    (returned : State) : (s.execute state action returned).2.1.counts = s.counts.next e := by
  obtain ⟨obj, found, rfl⟩ := Option.map_eq_some_iff.mp acts
  obtain ⟨tc, oc⟩ := counters_of_set set found
  simp only [execute, found]
  ext x
  · simp only [counts, getThreadCounter, Counts.next, getElem?_insert_thread, tc]
    by_cases same : action.thd = x
    · subst same
      simp
    · rw [if_neg same, Function.update_of_ne (Ne.symm same)]
      rfl
  · simp only [counts, getObjectCounter, Counts.next, getElem?_insert_thread, oc]
    by_cases same : obj = x
    · subst same
      simp [Step.isWrite, Action.isWrite]
    · rw [if_neg same, Function.update_of_ne (Ne.symm same)]
      rfl

theorem Takes.labels (takes : Takes s state actions) (prepared : s.Prepared state) :
    actions.filterMap Action.label =
      Commutation.stamps Counts.next Counts.label s.counts (actions.filterMap Action.step) := by
  induction takes with
  | done => rfl
  | @take s state action actions returned enabled rest ih =>
    have set := prepared action enabled
    have tail := ih (setActionCounters_prepared _ _)
    cases acts : action.step with
    | none =>
      have transparent : action.obj = none := by simpa [Action.step] using acts
      have label : action.label = none := by simp [Action.label, acts]
      simp only [List.filterMap_cons, acts, label, tail]
      simp [execute, transparent]
    | some e =>
      simp only [List.filterMap_cons, acts, label_of_set set acts, tail, Commutation.stamps,
        counts_execute set acts]

/-- Every sequence of steps is taken by some execution. -/
theorem exists_main (w : List Step) : ∃ init actions, Main init actions ∧ actions.filterMap Action.step = w := by
  let offer : Step → Action := fun e => { thd := e.thd, obj := some e.obj, op := e.op, inst := e.inst }
  suffices offered : ∀ s : Scheduler, ∃ init actions, Takes s (s.setActionCounters init) actions ∧
      actions.filterMap Action.step = w from offered {}
  induction w with
  | nil => exact fun s => ⟨{}, [], .done .., rfl⟩
  | cons e w ih =>
    intro s
    let action := s.setCounters (offer e)
    obtain ⟨returned, actions, takes, rfl⟩ := ih (s.execute { enabled := [action] } action {}).2.1
    refine ⟨{ enabled := [offer e] }, action :: actions, .take returned ?_ takes, ?_⟩
    · exact List.mem_singleton_self _
    · simp [action, offer, setCounters, Action.step]

/-- The labels of two executions, where transparent actions have none, form the same
multiset if and only if exchanges of independent steps turn one into the other. -/
theorem labels_perm_iff_swaps {init' : State} {actions' : List Action} (first : Main init actions)
    (second : Main init' actions') :
    (actions.filterMap Action.label).Perm (actions'.filterMap Action.label) ↔
      Commutation.Swaps Step.Independent (actions.filterMap Action.step) (actions'.filterMap Action.step) := by
  rw [first.labels (setActionCounters_prepared _ _), second.labels (setActionCounters_prepared _ _)]
  exact Commutation.stamps_perm_iff Step.Independent.symm Counts.commutes Counts.exposes _

/-- A read and a write to different objects. -/
def reader : Action := { thd := 1, obj := some 8, op := .memRead, inst := some 3 }
def writer : Action := { thd := 2, obj := some 9, op := .memWrite }

theorem labels_perm_iff_swaps_pair :
    ([{ reader with tc := 1 }, { writer with tc := 1, oc := 1 }].filterMap Action.label).Perm
        ([{ writer with tc := 1, oc := 1 }, { reader with tc := 1 }].filterMap Action.label) ↔
      Commutation.Swaps Step.Independent
        ([{ reader with tc := 1 }, { writer with tc := 1, oc := 1 }].filterMap Action.step)
        ([{ writer with tc := 1, oc := 1 }, { reader with tc := 1 }].filterMap Action.step) :=
  labels_perm_iff_swaps
    (show Main { enabled := [reader, writer] } _ from
      .take { enabled := [writer] } (by decide) (.take {} (by decide) (.done ..)))
    (show Main { enabled := [reader, writer] } _ from
      .take { enabled := [reader] } (by decide) (.take {} (by decide) (.done ..)))

end Scheduler

end Maple.Systematic
