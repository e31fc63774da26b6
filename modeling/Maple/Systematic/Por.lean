import Maple.Lib.Bag
import Maple.Systematic.Scheduler

/-! State matching of `systematic/chess.cc`. The states that an execution visits are
stored with 32 bits of the exclusive or of the hashes of the actions before them; a
candidate is pruned when a stored state of the same hash and with no more preemptions has
all actions of the candidate's state. -/
namespace Maple.Systematic

/-- `uid()` of threads and objects and `id()` of instructions, the same in every process. -/
structure Ids where
  thd : Thread → BitVec 32
  obj : Object → BitVec 32
  inst : InstId → BitVec 32

def Operation.val : Operation → ℕ
  | invalid => 0
  | threadStart => 1
  | threadEnd => 2
  | threadCreate => 3
  | threadJoin => 4
  | mutexLock => 11
  | mutexUnlock => 12
  | mutexTrylock => 13
  | condWait => 21
  | condSignal => 22
  | condBroadcast => 23
  | condTimedwait => 24
  | barrierInit => 31
  | barrierWait => 32
  | memRead => 41
  | memWrite => 42
  | sleep => 51
  | usleep => 52
  | nanosleep => 53
  | schedYield => 54

/-- `Hash`: the shifts of identifiers are done in 32 bits, before the conversion. -/
def hash (ids : Ids) (a : Action) : Option (BitVec 64) := do
  let obj ← a.obj
  let inst ← a.inst
  return (ids.thd a.thd).setWidth 64 + (ids.obj obj <<< 2).setWidth 64 + BitVec.ofNat 64 (a.op.val <<< 5)
    + (ids.inst inst <<< 7).setWidth 64 + (BitVec.ofNat 64 a.tc <<< 13) + (BitVec.ofNat 64 a.oc <<< 23)

def hashJoin (h₁ h₂ : BitVec 64) : BitVec 64 := h₁ ^^^ h₂

def isPreemptiveChoice (currAction : Option Action) (currState : State) (a : Action) : Bool :=
  match currAction with
  | none => false
  | some curr => currState.isEnabled curr.thd && a.thd ≠ curr.thd

structure VisitedState where
  hashVal : BitVec 64
  preemptions : ℕ
  execId : ℕ
  stateIdx : ℕ

/-- `VisitedStateProto`, where the hash has 32 bits. -/
structure VisitedStateProto where
  hashVal : BitVec 32
  preemptions : ℕ
  execId : ℕ
  stateIdx : ℕ

def VisitedState.save (vs : VisitedState) : VisitedStateProto :=
  ⟨vs.hashVal.setWidth 32, vs.preemptions, vs.execId, vs.stateIdx⟩

def VisitedStateProto.load (vs : VisitedStateProto) : VisitedState :=
  ⟨vs.hashVal.setWidth 64, vs.preemptions, vs.execId, vs.stateIdx⟩

@[simp] theorem VisitedStateProto.save_load (vs : VisitedStateProto) : vs.load.save = vs := by
  simp [load, VisitedState.save]

/-- The states in the order of their indices. -/
abbrev Execution := List State

abbrev ActionHashMap := OrdMap (BitVec 64) (List Action)

namespace Por

/-- The comparison of six fields in `PorStateMatch`. -/
def sameAction (a b : Action) : Bool :=
  a.thd = b.thd && a.obj = b.obj && a.op = b.op && a.inst = b.inst && a.tc = b.tc && a.oc = b.oc

/-- One round of step 1: `vs_action_hash_table[Hash(a)].push_back(a)`. -/
def addAction (ids : Ids) (table : ActionHashMap) (s : State) : Option ActionHashMap := do
  let a ← s.taken
  if a.obj.isNone then return table
  let h ← hash ids a
  return table.insert h (table[h]?.getD [] ++ [a])

/-- Step 2, over the candidate and the actions that the current execution took. -/
def matchActions (ids : Ids) : ActionHashMap → List (Option Action) → Option Bool
  | _, [] => some true
  | table, taken :: rest => do
    let a ← taken
    if a.obj.isNone then matchActions ids table rest
    else
      let h ← hash ids a
      match table[h]? with
      | none => return false
      | some bucket =>
        if bucket.any (sameAction a) then
          matchActions ids (table.insert h (bucket.eraseP (sameAction a))) rest
        else return false

/-- `PorStateMatch`. The lists hold the states before `state` and before `vs_state`, the
latest first; a loaded execution is never the object of the current one. -/
def porStateMatch (ids : Ids) (past : List State) (action : Action) (vsPast : List State) : Option Bool := do
  let table ← vsPast.foldlM (addAction ids) ∅
  matchActions ids table (some action :: past.map State.taken)

/-- The actions on objects, as a multiset of their six fields. -/
def labels (states : List State) : Multiset Label :=
  ↑((states.filterMap State.taken).filterMap Action.label)

/-- The hash of an action depends on its label only. -/
def labelHash (ids : Ids) (l : Label) : Option (BitVec 64) :=
  hash ids { thd := l.thd, obj := some l.obj, op := l.op, inst := l.inst, tc := l.tc, oc := l.oc }

/-- What `DEBUG_ASSERT` of `Hash` asks for. -/
def Hashable (a : Action) : Prop := a.obj ≠ none → a.inst ≠ none

variable {ids : Ids} {a b : Action} {l : Label} {h : BitVec 64} {table : ActionHashMap}

theorem label_eq_none_iff : a.label = none ↔ a.obj = none := by simp [Action.label, Action.step]

theorem object_of_label (labelled : a.label = some l) : a.obj ≠ none := by
  intro missing
  rw [label_eq_none_iff.mpr missing] at labelled
  exact nomatch labelled

theorem exists_hash (ids : Ids) (hashable : Hashable a) (labelled : a.label = some l) :
    ∃ h, hash ids a = some h := by
  obtain ⟨obj, object⟩ := Option.ne_none_iff_exists'.mp (object_of_label labelled)
  obtain ⟨inst, instruction⟩ := Option.ne_none_iff_exists'.mp (hashable (object_of_label labelled))
  rw [hash, object, instruction]
  exact ⟨_, rfl⟩

theorem labelHash_label (ids : Ids) (labelled : a.label = some l) : labelHash ids l = hash ids a := by
  obtain ⟨e, acts, rfl⟩ := Option.map_eq_some_iff.mp labelled
  obtain ⟨obj, found, rfl⟩ := Option.map_eq_some_iff.mp acts
  simp [labelHash, hash, found]

/-- Actions on objects agree in six fields when they have one label. -/
theorem sameAction_iff (labelled : a.label = some l) : sameAction a b = true ↔ b.label = some l := by
  obtain ⟨e, acts, rfl⟩ := Option.map_eq_some_iff.mp labelled
  obtain ⟨obj, found, rfl⟩ := Option.map_eq_some_iff.mp acts
  cases other : b.obj with
  | none => simp [sameAction, found, other, Action.label, Action.step]
  | some o =>
    simp only [sameAction, found, other, Action.label, Action.step, Option.map_some, Bool.and_eq_true,
      decide_eq_true_eq, Option.some.injEq, Label.mk.injEq, Step.mk.injEq]
    grind

theorem filterMap_eraseP (labelled : a.label = some l) (bucket : List Action) :
    (bucket.eraseP (sameAction a)).filterMap Action.label = (bucket.filterMap Action.label).erase l := by
  induction bucket with
  | nil => rfl
  | cons b rest ih =>
    by_cases same : sameAction a b = true
    · have label := (sameAction_iff labelled).mp same
      simp [same, label]
    · have other : b.label ≠ some l := fun label => same ((sameAction_iff labelled).mpr label)
      cases label : b.label with
      | none => simp [same, label, ih]
      | some k =>
        have apart : k ≠ l := fun equal => other (equal ▸ label)
        simp [same, label, ih, apart]

/-- What the table says about each bucket. -/
def Holds (ids : Ids) (table : ActionHashMap) (m : Multiset Label) : Prop :=
  Bag.Holds (labelHash ids) (fun h => (table[h]?.getD []).filterMap Action.label) m

theorem holds_empty (ids : Ids) : Holds ids ∅ 0 := by
  intro l h hashed
  simp

theorem Holds.insert {m : Multiset Label} (holds : Holds ids table m) (labelled : a.label = some l)
    (hashed : hash ids a = some h) :
    Holds ids (table.insert h (table[h]?.getD [] ++ [a])) (l ::ₘ m) := by
  apply Bag.Holds.push holds ((labelHash_label ids labelled).trans hashed)
  intro k
  rw [getElem?_insert_address]
  split
  · simp [labelled]
  · rfl

theorem Holds.remove {m : Multiset Label} {bucket : List Action} (holds : Holds ids table m)
    (labelled : a.label = some l) (hashed : hash ids a = some h) (found : table[h]? = some bucket) :
    Holds ids (table.insert h (bucket.eraseP (sameAction a))) (m.erase l) := by
  apply Bag.Holds.erase holds ((labelHash_label ids labelled).trans hashed)
  intro k
  rw [getElem?_insert_address]
  split
  · simp [found, filterMap_eraseP labelled]
  · rfl

/-- States whose actions were taken and hashed. -/
def Taken (states : List State) : Prop := ∀ s ∈ states, ∃ a, s.taken = some a ∧ Hashable a

theorem labels_cons {s : State} (states : List State) (taken : s.taken = some a) :
    labels (s :: states) = match a.label with
      | none => labels states
      | some l => l ::ₘ labels states := by
  cases label : a.label with
  | none => simp [labels, taken, label]
  | some l => simp [labels, taken, label]

/-- Step 1 puts the labels of the states into the table. -/
theorem foldlM_addAction {states : List State} (taken : Taken states) {m : Multiset Label}
    (holds : Holds ids table m) :
    ∃ final, states.foldlM (addAction ids) table = some final ∧ Holds ids final (labels states + m) := by
  induction states generalizing table m with
  | nil => exact ⟨table, rfl, by simpa [labels] using holds⟩
  | cons s rest ih =>
    obtain ⟨a, took, hashable⟩ := taken s List.mem_cons_self
    have later : Taken rest := fun s member => taken s (List.mem_cons_of_mem _ member)
    cases label : a.label with
    | none =>
      obtain ⟨final, ran, held⟩ := ih later holds
      refine ⟨final, ?_, ?_⟩
      · simpa [addAction, took, label_eq_none_iff.mp label] using ran
      · simpa only [labels_cons rest took, label] using held
    | some l =>
      obtain ⟨h, hashed⟩ := exists_hash ids hashable label
      obtain ⟨final, ran, held⟩ := ih later (holds.insert label hashed)
      refine ⟨final, ?_, ?_⟩
      · simpa [addAction, took, object_of_label label, hashed] using ran
      · simpa only [labels_cons rest took, label, Multiset.cons_add, Multiset.add_cons] using held

/-- Step 2 decides whether the table has all actions. -/
theorem matchActions_spec (actions : List Action) {m : Multiset Label} (holds : Holds ids table m)
    (hashable : ∀ a ∈ actions, Hashable a) :
    ∃ b, matchActions ids table (actions.map some) = some b ∧
      (b = true ↔ (actions.filterMap Action.label : Multiset Label) ≤ m) := by
  induction actions generalizing table m with
  | nil => exact ⟨true, rfl, by simp⟩
  | cons a rest ih =>
    have later : ∀ a ∈ rest, Hashable a := fun a member => hashable a (List.mem_cons_of_mem _ member)
    cases label : a.label with
    | none =>
      obtain ⟨b, ran, decides⟩ := ih holds later
      refine ⟨b, ?_, ?_⟩
      · simpa [matchActions, label_eq_none_iff.mp label] using ran
      · simpa [label] using decides
    | some l =>
      have object := object_of_label label
      obtain ⟨h, hashed⟩ := exists_hash ids (hashable a List.mem_cons_self) label
      have member := Bag.Holds.mem_iff holds ((labelHash_label ids label).trans hashed)
      simp only [List.filterMap_cons, label, ← Multiset.cons_coe, Bag.cons_le_iff]
      cases bucketed : table[h]? with
      | none =>
        have missing : l ∉ m := fun inside => by simpa [bucketed] using member.mpr inside
        exact ⟨false, by simp [matchActions, object, hashed, bucketed], by simp [missing]⟩
      | some bucket =>
        have any : bucket.any (sameAction a) = true ↔ l ∈ m := by
          rw [← member, bucketed, List.any_eq_true]
          simp [sameAction_iff label]
        by_cases inside : l ∈ m
        · obtain ⟨b, ran, decides⟩ := ih (holds.remove label hashed bucketed) later
          refine ⟨b, ?_, ?_⟩
          · simpa only [List.map_cons, matchActions, Option.bind_eq_bind, Option.bind_some,
              Option.isNone_iff_eq_none, object, if_false, hashed, bucketed, any.mpr inside, if_true] using ran
          · simpa [inside] using decides
        · refine ⟨false, ?_, by simp [inside]⟩
          have absent : bucket.any (sameAction a) = false := by simpa using mt any.mp inside
          simp only [List.map_cons, matchActions, Option.bind_eq_bind, Option.bind_some,
            Option.isNone_iff_eq_none, object, if_false, hashed, bucketed, absent, Bool.false_eq_true]
          rfl

theorem Taken.map_taken {states : List State} (taken : Taken states) :
    states.map State.taken = (states.filterMap State.taken).map some := by
  induction states with
  | nil => rfl
  | cons s rest ih =>
    obtain ⟨a, took, -⟩ := taken s List.mem_cons_self
    have later : Taken rest := fun s member => taken s (List.mem_cons_of_mem _ member)
    simp [took, ih later]

/-- `PorStateMatch` tests inclusion, in one direction. -/
theorem porStateMatch_spec (ids : Ids) {past vsPast : List State} (taken : Taken past)
    (vsTaken : Taken vsPast) (hashable : Hashable a) :
    ∃ b, porStateMatch ids past a vsPast = some b ∧
      (b = true ↔ labels ({ taken := some a } :: past) ≤ labels vsPast) := by
  obtain ⟨table, built, holds⟩ := foldlM_addAction vsTaken (holds_empty ids)
  rw [Multiset.add_zero] at holds
  obtain ⟨b, ran, decides⟩ := matchActions_spec (a :: past.filterMap State.taken) holds (by
    intro c member
    rcases List.mem_cons.mp member with rfl | older
    · exact hashable
    · obtain ⟨s, listed, took⟩ := List.mem_filterMap.mp older
      obtain ⟨d, took', hashable⟩ := taken s listed
      cases took.symm.trans took'
      exact hashable)
  refine ⟨b, ?_, decides⟩
  simpa only [porStateMatch, built, Option.bind_eq_bind, Option.bind_some, taken.map_taken,
    List.map_cons] using ran

end Por
end Maple.Systematic
