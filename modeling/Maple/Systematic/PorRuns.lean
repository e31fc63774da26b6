import Maple.Lib.Runs
import Maple.Systematic.Por

/-! Runs of the search with partial order reduction. Each process loads what the earlier
ones stored, takes enabled actions, and stores its execution unless it was useless. -/
namespace Maple.Systematic

/-- The directory `por_info_path`. -/
structure PorInfo where
  numExecs : ℕ := 0
  visited : List VisitedStateProto := []
  execs : OrdMap ℕ Execution := ∅

/-- `PorGetExec`: a file that does not exist loads as an empty execution. -/
def PorInfo.porGetExec (info : PorInfo) (execId : ℕ) : Execution := info.execs[execId]?.getD []

structure ChessScheduler where
  counters : Scheduler := {}
  /-- The states before `curr_state_`, the latest first. -/
  past : List State := []
  currState : State
  currAction : Option Action := none
  currPreemptions : ℕ := 0
  currHashVal : BitVec 64 := 0
  visitedStates : OrdMap (BitVec 64) (List VisitedState) := ∅
  currVisitedStates : List VisitedState := []
  currExecId : ℕ

namespace ChessScheduler

/-- `visited_states_[vs->hash_val].push_back(vs)` -/
def addVisited (table : OrdMap (BitVec 64) (List VisitedState)) (vs : VisitedState) :
    OrdMap (BitVec 64) (List VisitedState) :=
  table.insert vs.hashVal (table[vs.hashVal]?.getD [] ++ [vs])

/-- `PorLoad` -/
def porLoad (info : PorInfo) : OrdMap (BitVec 64) (List VisitedState) :=
  (info.visited.map VisitedStateProto.load).foldl addVisited ∅

/-- `PbInit`, `PorInit` and the initial state of the program. -/
def programStart (info : PorInfo) (init : State) : ChessScheduler where
  currState := ({} : Scheduler).setActionCounters init
  visitedStates := porLoad info
  currExecId := info.numExecs + 1

def pbUpdate (c : ChessScheduler) (next : Action) : ChessScheduler :=
  if isPreemptiveChoice c.currAction c.currState next then { c with currPreemptions := c.currPreemptions + 1 }
  else c

def porUpdate (ids : Ids) (c : ChessScheduler) (next : Action) : Option ChessScheduler := do
  if next.obj.isNone then return c
  let h ← hash ids next
  let hashVal := hashJoin c.currHashVal h
  return { c with
    currHashVal := hashVal
    currVisitedStates := c.currVisitedStates ++
      [⟨hashVal, c.currPreemptions, c.currExecId, c.past.length + 1⟩] }

/-- One round of the loop in `Explore`, where the controller has returned the given state. -/
def explore (ids : Ids) (pbEnable : Bool) (c : ChessScheduler) (next : Action) (returned : State) :
    Option ChessScheduler := do
  let c ← porUpdate ids (if pbEnable then c.pbUpdate next else c) next
  let (stored, counters, currState) := c.counters.execute c.currState next returned
  return { c with counters, past := stored :: c.past, currAction := some next, currState }

/-- The body of the loop in `PorVisited`. -/
def porMatches (ids : Ids) (info : PorInfo) (c : ChessScheduler) (next : Action) (preemptions : ℕ)
    (vs : VisitedState) : Option Bool := do
  let vsExec := info.porGetExec vs.execId
  debugAssert (vs.stateIdx < vsExec.length)
  if vs.preemptions ≤ preemptions then
    Por.porStateMatch ids c.past next (vsExec.take vs.stateIdx).reverse
  else return false

/-- The preemptions of the candidate's state. -/
def newPreemptions (c : ChessScheduler) (next : Action) : ℕ :=
  c.currPreemptions + if isPreemptiveChoice c.currAction c.currState next then 1 else 0

def porVisited (ids : Ids) (info : PorInfo) (c : ChessScheduler) (next : Action) : Option Bool := do
  if next.obj.isNone then return false
  let h ← hash ids next
  (c.visitedStates[hashJoin c.currHashVal h]?.getD []).anyM
    (c.porMatches ids info next (c.newPreemptions next))

/-- The states of the execution, the current one last. -/
def execution (c : ChessScheduler) : Execution := c.past.reverse ++ [c.currState]

def porSave (info : PorInfo) (c : ChessScheduler) : PorInfo where
  numExecs := c.currExecId
  visited := (c.visitedStates.toList.flatMap (·.2) ++ c.currVisitedStates).map VisitedState.save
  execs := info.execs.insert c.currExecId c.execution

end ChessScheduler

/-- A process of the search and what is on disk. -/
structure PorRun where
  info : PorInfo := {}
  chess : ChessScheduler

namespace PorRun

inductive Event where
  | take (next : Action) (returned : State)
  /-- The process exits, and another one starts from the given state. -/
  | exit (init : State)
  /-- The same after a useless or a diverging execution, which is not stored. -/
  | abandon (init : State)

def start (info : PorInfo) (init : State) : PorRun := { info, chess := .programStart info init }

def step (ids : Ids) (pbEnable : Bool) (r : PorRun) : Event → Option PorRun
  | .take next returned => (r.chess.explore ids pbEnable next returned).map fun chess => { r with chess }
  | .exit init => some (start (ChessScheduler.porSave r.info r.chess) init)
  | .abandon init => some (start r.info init)

/-- Only enabled actions are taken. -/
def Allows (r : PorRun) : Event → Prop
  | .take next _ => next ∈ r.chess.currState.enabled
  | _ => True

instance (r : PorRun) : (e : Event) → Decidable (r.Allows e)
  | .take .. => inferInstanceAs (Decidable (_ ∈ _))
  | .exit _ => .isTrue trivial
  | .abandon _ => .isTrue trivial

abbrev Reachable (ids : Ids) (pbEnable : Bool) : PorRun → Prop :=
  Runs.Reach (fun r => ∃ init, r = start {} init) Allows (step ids pbEnable)

end PorRun

namespace Por

/-- The preemptive choices of an execution, the latest state first. -/
def preemptions : List State → ℕ
  | [] => 0
  | s :: earlier => preemptions earlier +
      if s.taken.any (isPreemptiveChoice (earlier.head?.bind State.taken) s) then 1 else 0

/-- Preemptions are counted under the preemption bound only. -/
def counted (pbEnable : Bool) (states : List State) : ℕ := if pbEnable then preemptions states else 0

/-- The states before the one of an index, the latest first. -/
def before (exec : Execution) (idx : ℕ) : List State := (exec.take idx).reverse

def hashSum (ids : Ids) (states : List State) : BitVec 64 :=
  Bag.xorSum ((labels states).filterMap (labelHash ids))

/-- A visited state describes a state of its execution. -/
structure Recorded (ids : Ids) (pbEnable : Bool) (exec : Execution) (vs : VisitedStateProto) : Prop where
  inside : vs.stateIdx < exec.length
  taken : Taken (before exec vs.stateIdx)
  hashVal : vs.hashVal = (hashSum ids (before exec vs.stateIdx)).setWidth 32
  preemptions : vs.preemptions = counted pbEnable (before exec vs.stateIdx)

variable {ids : Ids} {pbEnable : Bool} {a : Action} {l : Label} {h : BitVec 64}

theorem hashSum_transparent {s : State} (states : List State) (taken : s.taken = some a)
    (transparent : a.obj = none) : hashSum ids (s :: states) = hashSum ids states := by
  simp only [hashSum, labels_cons states taken, label_eq_none_iff.mpr transparent]

theorem hashSum_cons {s : State} (states : List State) (taken : s.taken = some a)
    (object : a.obj ≠ none) (hashed : hash ids a = some h) :
    hashSum ids (s :: states) = hashJoin (hashSum ids states) h := by
  obtain ⟨l, label⟩ := Option.ne_none_iff_exists'.mp (mt label_eq_none_iff.mp object)
  have labelled := (labelHash_label ids label).trans hashed
  simp only [hashSum, labels_cons states taken, label, Multiset.filterMap_cons_some _ _ _ labelled,
    Bag.xorSum_cons, hashJoin]

/-- A stored hash is found for a short hash with the same lower half. -/
theorem setWidth_eq_iff {stored : BitVec 32} {h : BitVec 64} :
    stored.setWidth 64 = h ↔ h.toNat < 2 ^ 32 ∧ stored = h.setWidth 32 := by
  constructor
  · rintro rfl
    refine ⟨?_, by simp⟩
    rw [BitVec.toNat_setWidth_of_le (by decide)]
    exact stored.isLt
  · rintro ⟨short, rfl⟩
    apply BitVec.eq_of_toNat_eq
    rw [BitVec.toNat_setWidth_of_le (by decide), BitVec.toNat_setWidth, Nat.mod_eq_of_lt short]

theorem hashable_of_hash (hashed : hash ids a = some h) : Hashable a := by
  intro _ missing
  simp [hash, missing] at hashed

theorem Recorded.extend {past : List State} {s t u : State} {vs : VisitedStateProto}
    (recorded : Recorded ids pbEnable (past.reverse ++ [s]) vs) :
    Recorded ids pbEnable ((t :: past).reverse ++ [u]) vs := by
  have bound : vs.stateIdx ≤ past.reverse.length := by simpa [Nat.lt_succ_iff] using recorded.inside
  have same : before ((t :: past).reverse ++ [u]) vs.stateIdx = before (past.reverse ++ [s]) vs.stateIdx := by
    rw [before, before, List.reverse_cons, List.append_assoc, List.take_append_of_le_length bound,
      List.take_append_of_le_length bound]
  refine ⟨?_, same ▸ recorded.taken, same ▸ recorded.hashVal, same ▸ recorded.preemptions⟩
  have inside := recorded.inside
  simp only [List.length_append, List.length_reverse, List.length_cons, List.length_nil] at inside ⊢
  omega

/-- The state that the latest action leads to. -/
theorem before_last (past : List State) (s : State) : before (past.reverse ++ [s]) past.length = past := by
  rw [before, List.take_left' List.length_reverse, List.reverse_reverse]

theorem anyM_spec {α : Type} (p : α → Option Bool) (xs : List α) (total : ∀ x ∈ xs, ∃ b, p x = some b) :
    ∃ b, xs.anyM p = some b ∧ (b = true ↔ ∃ x ∈ xs, p x = some true) := by
  induction xs with
  | nil => exact ⟨false, rfl, by simp⟩
  | cons x rest ih =>
    obtain ⟨b, found⟩ := total x List.mem_cons_self
    obtain ⟨c, ran, decides⟩ := ih fun x member => total x (List.mem_cons_of_mem _ member)
    cases b with
    | true => exact ⟨true, by simp [List.anyM, found], by simp [found]⟩
    | false => exact ⟨c, by simp [List.anyM, found, ran], by simp [found, decides]⟩

end Por

namespace ChessScheduler

/-- A loaded state is in the bucket of its hash. -/
theorem mem_addVisited (stored : List VisitedState) (table : OrdMap (BitVec 64) (List VisitedState))
    (h : BitVec 64) (vs : VisitedState) : vs ∈ (stored.foldl addVisited table)[h]?.getD [] ↔
      vs ∈ table[h]?.getD [] ∨ vs ∈ stored ∧ vs.hashVal = h := by
  induction stored generalizing table with
  | nil => simp
  | cons first rest ih =>
    rw [List.foldl_cons, ih, addVisited, getElem?_insert_address]
    by_cases same : first.hashVal = h
    · subst same
      simp only [if_true, Option.getD_some, List.mem_append, List.mem_cons]
      grind
    · simp only [same, if_false, List.mem_cons]
      grind

end ChessScheduler

namespace PorRun
open Por

/-- What every step keeps. -/
structure Consistent (ids : Ids) (pbEnable : Bool) (r : PorRun) : Prop where
  taken : Taken r.chess.past
  action : r.chess.currAction = r.chess.past.head?.bind State.taken
  hashVal : r.chess.currHashVal = hashSum ids r.chess.past
  preemptions : r.chess.currPreemptions = counted pbEnable r.chess.past
  table : r.chess.visitedStates = ChessScheduler.porLoad r.info
  execId : r.chess.currExecId = r.info.numExecs + 1
  stored : ∀ vs ∈ r.info.visited, vs.execId ≤ r.info.numExecs ∧
    Recorded ids pbEnable (r.info.porGetExec vs.execId) vs
  recent : ∀ vs ∈ r.chess.currVisitedStates, vs.execId = r.chess.currExecId ∧
    Recorded ids pbEnable r.chess.execution vs.save

variable {ids : Ids} {pbEnable : Bool} {r next : PorRun} {a : Action}

theorem consistent_start {info : PorInfo} (init : State) (stored : ∀ vs ∈ info.visited,
    vs.execId ≤ info.numExecs ∧ Recorded ids pbEnable (info.porGetExec vs.execId) vs) :
    (start info init).Consistent ids pbEnable where
  taken _ member := nomatch member
  action := rfl
  hashVal := rfl
  preemptions := by cases pbEnable <;> rfl
  table := rfl
  execId := rfl
  stored
  recent _ member := nomatch member

/-- The states up to a candidate's action. -/
def candidate (r : PorRun) (a : Action) : List State :=
  { r.chess.currState with taken := some a } :: r.chess.past

theorem Consistent.newPreemptions (consistent : r.Consistent ids true) (a : Action) :
    r.chess.newPreemptions a = counted true (r.candidate a) := by
  rw [ChessScheduler.newPreemptions, consistent.preemptions, consistent.action]
  rfl

theorem Consistent.pbUpdate (consistent : r.Consistent ids pbEnable) (a : Action) :
    (if pbEnable then r.chess.pbUpdate a else r.chess) =
      { r.chess with currPreemptions := counted pbEnable (r.candidate a) } := by
  cases pbEnable with
  | false =>
    have none := consistent.preemptions
    simp only [counted, Bool.false_eq_true, if_false] at none ⊢
    rw [← none]
  | true =>
    rw [← consistent.newPreemptions a, ChessScheduler.newPreemptions, ChessScheduler.pbUpdate, if_pos rfl]
    split
    · rfl
    · rfl

/-- What one round of `Explore` does. -/
theorem Consistent.explore (consistent : r.Consistent ids pbEnable) {returned : State} {c : ChessScheduler}
    (explored : r.chess.explore ids pbEnable a returned = some c) : Hashable a ∧
      ∃ counters currState, c = { r.chess with
        counters, currState
        past := r.candidate a
        currAction := some a
        currPreemptions := counted pbEnable (r.candidate a)
        currHashVal := hashSum ids (r.candidate a)
        currVisitedStates := r.chess.currVisitedStates ++ if a.obj = none then [] else
          [⟨hashSum ids (r.candidate a), counted pbEnable (r.candidate a), r.chess.currExecId,
            r.chess.past.length + 1⟩] } := by
  simp only [ChessScheduler.explore, consistent.pbUpdate, ChessScheduler.porUpdate,
    Option.bind_eq_bind] at explored
  by_cases transparent : a.obj = none
  · have same : hashSum ids (r.candidate a) = r.chess.currHashVal := by
      rw [consistent.hashVal]
      exact hashSum_transparent _ rfl transparent
    refine ⟨fun object => absurd transparent object, ?_⟩
    simp only [transparent, Option.isNone_none, if_true, Option.pure_def, Option.bind_some,
      Option.some.injEq] at explored
    rw [← explored, same]
    simp only [if_pos transparent, List.append_nil]
    exact ⟨_, _, rfl⟩
  · have kept : a.obj.isNone = false := Bool.eq_false_iff.mpr (mt Option.isNone_iff_eq_none.mp transparent)
    cases hashed : hash ids a with
    | none => simp [kept, hashed] at explored
    | some h =>
      have sum : hashSum ids (r.candidate a) = hashJoin r.chess.currHashVal h := by
        rw [consistent.hashVal]
        exact hashSum_cons _ rfl transparent hashed
      refine ⟨hashable_of_hash hashed, ?_⟩
      simp only [kept, Bool.false_eq_true, if_false, hashed, Option.pure_def, Option.bind_some,
        Option.some.injEq] at explored
      rw [← explored, sum, if_neg transparent]
      exact ⟨_, _, rfl⟩

theorem Consistent.take (consistent : r.Consistent ids pbEnable) {returned : State} {c : ChessScheduler}
    (explored : r.chess.explore ids pbEnable a returned = some c) :
    ({ r with chess := c } : PorRun).Consistent ids pbEnable := by
  obtain ⟨hashable, counters, currState, rfl⟩ := consistent.explore explored
  have taken : Taken (r.candidate a) := by
    intro s member
    rcases List.mem_cons.mp member with rfl | older
    · exact ⟨a, rfl, hashable⟩
    · exact consistent.taken s older
  refine ⟨taken, rfl, rfl, rfl, consistent.table, consistent.execId, consistent.stored, ?_⟩
  intro vs member
  rcases List.mem_append.mp member with old | new
  · exact ⟨(consistent.recent vs old).1, (consistent.recent vs old).2.extend⟩
  · split at new
    · exact nomatch new
    · cases List.mem_singleton.mp new
      have here : before ((r.candidate a).reverse ++ [currState]) (r.chess.past.length + 1) =
          r.candidate a := before_last (r.candidate a) currState
      refine ⟨rfl, ?_, ?_, ?_, ?_⟩
      · simp [ChessScheduler.execution, candidate, VisitedState.save]
      · exact here.symm ▸ taken
      · exact here.symm ▸ rfl
      · exact here.symm ▸ rfl

theorem Consistent.mem_visitedStates (consistent : r.Consistent ids pbEnable) {h : BitVec 64} {vs : VisitedState} :
    vs ∈ r.chess.visitedStates[h]?.getD [] ↔ ∃ proto ∈ r.info.visited, proto.load = vs ∧ proto.load.hashVal = h := by
  rw [consistent.table, ChessScheduler.porLoad, ChessScheduler.mem_addVisited]
  simp only [Std.ExtTreeMap.getElem?_empty, Option.getD_none, List.not_mem_nil, false_or, List.mem_map]
  grind

theorem Consistent.exit (consistent : r.Consistent ids pbEnable) (init : State) :
    (start (ChessScheduler.porSave r.info r.chess) init).Consistent ids pbEnable := by
  apply consistent_start
  intro proto saved
  have execId := consistent.execId
  obtain ⟨vs, member, rfl⟩ := List.mem_map.mp saved
  rcases List.mem_append.mp member with loaded | recent
  · obtain ⟨⟨h, bucket⟩, listed, inside⟩ := List.mem_flatMap.mp loaded
    have found := Std.ExtTreeMap.mem_toList_iff_getElem?_eq_some.mp listed
    obtain ⟨proto, old, rfl, -⟩ := consistent.mem_visitedStates.mp (by rw [found]; exact inside)
    obtain ⟨bound, recorded⟩ := consistent.stored proto old
    rw [VisitedStateProto.save_load]
    have other : r.chess.currExecId ≠ proto.execId := by omega
    refine ⟨?_, ?_⟩
    · simp only [ChessScheduler.porSave]
      omega
    · simpa [ChessScheduler.porSave, PorInfo.porGetExec, other] using recorded
  · obtain ⟨same, recorded⟩ := consistent.recent vs recent
    refine ⟨Nat.le_of_eq same, ?_⟩
    simpa [ChessScheduler.porSave, PorInfo.porGetExec, VisitedState.save, same] using recorded

theorem Consistent.step (consistent : r.Consistent ids pbEnable) (e : Event)
    (stepped : r.step ids pbEnable e = some next) : next.Consistent ids pbEnable := by
  cases e with
  | take a returned =>
    obtain ⟨c, explored, rfl⟩ := Option.map_eq_some_iff.mp stepped
    exact consistent.take explored
  | exit init =>
    cases stepped
    exact consistent.exit init
  | abandon init =>
    cases stepped
    exact consistent_start init consistent.stored

theorem Reachable.consistent (reached : r.Reachable ids pbEnable) : r.Consistent ids pbEnable := by
  apply reached.invariant (Consistent ids pbEnable)
  · rintro r ⟨init, rfl⟩
    exact consistent_start init fun _ member => nomatch member
  · intro r e next consistent _ stepped
    exact consistent.step e stepped

/-- The states before a visited state. -/
def visited (r : PorRun) (vs : VisitedStateProto) : List State := before (r.info.porGetExec vs.execId) vs.stateIdx

/-- Some stored state, with no more preemptions, has exactly the candidate's actions. -/
def Covered (pbEnable : Bool) (r : PorRun) (a : Action) : Prop :=
  ∃ vs ∈ r.info.visited, counted pbEnable (r.visited vs) ≤ counted pbEnable (r.candidate a) ∧
    labels (r.visited vs) = labels (r.candidate a)

/-- The candidate's state has a hash below `2 ^ 32`, and some stored state, with no more
preemptions, has more actions, whose hashes cancel in the 32 bits that are stored. -/
def Cancels (ids : Ids) (pbEnable : Bool) (r : PorRun) (a : Action) : Prop :=
  (hashSum ids (r.candidate a)).toNat < 2 ^ 32 ∧
  ∃ vs ∈ r.info.visited, counted pbEnable (r.visited vs) ≤ counted pbEnable (r.candidate a) ∧
    labels (r.candidate a) < labels (r.visited vs) ∧
    (Bag.xorSum ((labels (r.visited vs) - labels (r.candidate a)).filterMap (labelHash ids))).setWidth 32 = 0

/-- Without the bound the code compares zeros. -/
theorem Consistent.preemptions_le_iff (consistent : r.Consistent ids pbEnable) {vs : VisitedStateProto}
    (recorded : Recorded ids pbEnable (r.info.porGetExec vs.execId) vs) (a : Action) :
    vs.preemptions ≤ r.chess.newPreemptions a ↔
      counted pbEnable (r.visited vs) ≤ counted pbEnable (r.candidate a) := by
  rw [recorded.preemptions]
  cases pbEnable with
  | false => exact iff_of_true (Nat.zero_le _) (Nat.zero_le _)
  | true =>
    rw [consistent.newPreemptions a]
    rfl

theorem Consistent.porMatches (consistent : r.Consistent ids pbEnable) {vs : VisitedStateProto}
    (stored : vs ∈ r.info.visited) (hashable : Hashable a) :
    ∃ b, r.chess.porMatches ids r.info a (r.chess.newPreemptions a) vs.load = some b ∧
      (b = true ↔ counted pbEnable (r.visited vs) ≤ counted pbEnable (r.candidate a) ∧
        labels (r.candidate a) ≤ labels (r.visited vs)) := by
  obtain ⟨-, recorded⟩ := consistent.stored vs stored
  obtain ⟨b, ran, decides⟩ := porStateMatch_spec ids consistent.taken recorded.taken hashable
  have inside : vs.load.stateIdx < (r.info.porGetExec vs.load.execId).length := recorded.inside
  rw [← consistent.preemptions_le_iff recorded a, ChessScheduler.porMatches]
  simp only [debugAssert_pos inside, Option.bind_eq_bind, Option.bind_some]
  change ∃ c, (if vs.preemptions ≤ _ then porStateMatch ids _ a (r.visited vs) else pure false) = some c ∧ _
  split
  · next few => exact ⟨b, ran, by rw [decides, and_iff_right few]; rfl⟩
  · next many => exact ⟨false, rfl, by simp [many]⟩

/-- `PorVisited` finds the stored states of the candidate's hash that have all its actions. -/
theorem Consistent.porVisited (consistent : r.Consistent ids pbEnable) (object : a.obj ≠ none)
    (hashable : Hashable a) :
    ∃ b, r.chess.porVisited ids r.info a = some b ∧
      (b = true ↔ ∃ vs ∈ r.info.visited, vs.load.hashVal = hashSum ids (r.candidate a) ∧
        counted pbEnable (r.visited vs) ≤ counted pbEnable (r.candidate a) ∧
          labels (r.candidate a) ≤ labels (r.visited vs)) := by
  obtain ⟨l, label⟩ := Option.ne_none_iff_exists'.mp (mt label_eq_none_iff.mp object)
  obtain ⟨h, hashed⟩ := exists_hash ids hashable label
  have sum : hashSum ids (r.candidate a) = hashJoin r.chess.currHashVal h := by
    rw [consistent.hashVal]
    exact hashSum_cons _ rfl object hashed
  obtain ⟨b, ran, decides⟩ := anyM_spec (r.chess.porMatches ids r.info a (r.chess.newPreemptions a))
    (r.chess.visitedStates[hashSum ids (r.candidate a)]?.getD []) (by
      intro vs member
      obtain ⟨proto, stored, rfl, -⟩ := consistent.mem_visitedStates.mp member
      obtain ⟨b, found, -⟩ := consistent.porMatches stored hashable
      exact ⟨b, found⟩)
  have kept : a.obj.isNone = false := Bool.eq_false_iff.mpr (mt Option.isNone_iff_eq_none.mp object)
  refine ⟨b, ?_, decides.trans ?_⟩
  · simpa only [ChessScheduler.porVisited, kept, Bool.false_eq_true, if_false, hashed, sum,
      Option.bind_eq_bind, Option.bind_some] using ran
  · constructor
    · rintro ⟨vs, member, matched⟩
      obtain ⟨proto, stored, rfl, same⟩ := consistent.mem_visitedStates.mp member
      obtain ⟨c, found, means⟩ := consistent.porMatches stored hashable
      rw [found, Option.some.injEq] at matched
      exact ⟨proto, stored, same, means.mp matched⟩
    · rintro ⟨proto, stored, same, inside⟩
      obtain ⟨c, found, means⟩ := consistent.porMatches stored hashable
      exact ⟨proto.load, consistent.mem_visitedStates.mpr ⟨proto, stored, rfl, same⟩, found.trans
        (congrArg some (means.mpr inside))⟩

end PorRun

/-- A candidate is pruned for a state with exactly its actions, unless the hashes of
surplus actions cancel: then it is pruned whether or not there is such a state. -/
theorem por_prunes_equal_iff {ids : Ids} {pbEnable : Bool} {r : PorRun} (reached : r.Reachable ids pbEnable)
    {a : Action} (object : a.obj ≠ none) (inst : a.inst ≠ none) :
    ∃ b, r.chess.porVisited ids r.info a = some b ∧
      ((b = true → r.Covered pbEnable a) ↔ (r.Cancels ids pbEnable a → r.Covered pbEnable a)) := by
  have consistent := reached.consistent
  obtain ⟨b, found, decides⟩ := consistent.porVisited object fun _ => inst
  -- the stored half of the hash is compared with the whole one
  have cancels : ∀ vs ∈ r.info.visited, Por.labels (r.candidate a) ≤ Por.labels (r.visited vs) →
      (vs.load.hashVal = Por.hashSum ids (r.candidate a) ↔
        (Por.hashSum ids (r.candidate a)).toNat < 2 ^ 32 ∧
        (Bag.xorSum ((Por.labels (r.visited vs) - Por.labels (r.candidate a)).filterMap
          (Por.labelHash ids))).setWidth 32 = 0) := by
    intro vs stored inside
    rw [VisitedStateProto.load, Por.setWidth_eq_iff, (consistent.stored vs stored).2.hashVal]
    exact and_congr_right fun _ => Bag.setWidth_xorSum_eq_iff 32 (Por.labelHash ids) inside
  refine ⟨b, found, ?_, ?_⟩
  · rintro prunes ⟨short, vs, stored, few, less, zero⟩
    apply prunes
    rw [decides]
    exact ⟨vs, stored, (cancels vs stored (le_of_lt less)).mpr ⟨short, zero⟩, few, le_of_lt less⟩
  · intro excluded pruned
    obtain ⟨vs, stored, same, few, inside⟩ := decides.mp pruned
    obtain ⟨short, zero⟩ := (cancels vs stored inside).mp same
    rcases eq_or_lt_of_le inside with equal | less
    · exact ⟨vs, stored, few, equal.symm⟩
    · exact excluded ⟨short, vs, stored, few, less, zero⟩

namespace PorRun
open Por

/-- Three threads write their own objects; the hashes of the first two actions are equal. -/
def writers : List Action :=
  [{ thd := 1, obj := some 2, op := .memWrite, inst := some 1 },
    { thd := 5, obj := some 1, op := .memWrite, inst := some 1 },
    { thd := 2, obj := some 3, op := .memWrite, inst := some 1 }]

def third : Action := { thd := 2, obj := some 3, op := .memWrite, inst := some 1, tc := 1, oc := 1 }

def plainIds : Ids := ⟨BitVec.ofNat 32, BitVec.ofNat 32, BitVec.ofNat 32⟩

/-- One execution takes the three actions, and another one starts. -/
theorem reachable_writers : ∃ r : PorRun, r.Reachable plainIds true ∧ third ∈ r.chess.currState.enabled ∧
    r.chess.porVisited plainIds r.info third = some true ∧ ¬ r.Covered true third := by
  have t : (Runs.follow Allows (step plainIds true) (start {} { enabled := writers })
      [.take { thd := 1, obj := some 2, op := .memWrite, inst := some 1, tc := 1, oc := 1 }
          { enabled := writers.drop 1 },
        .take { thd := 5, obj := some 1, op := .memWrite, inst := some 1, tc := 1, oc := 1 }
          { enabled := writers.drop 2 },
        .take third {},
        .exit { enabled := writers }]).any (fun r =>
      third ∈ r.chess.currState.enabled && r.chess.porVisited plainIds r.info third = some true &&
        r.info.visited.all (fun vs => labels (r.visited vs) ≠ labels (r.candidate third))) = true := by
    decide +kernel
  obtain ⟨r, reached, found⟩ : ∃ r : PorRun, r.Reachable plainIds true ∧ _ = true :=
    Runs.Reach.of_follow ⟨_, rfl⟩ _ t
  simp only [Bool.and_eq_true, decide_eq_true_eq] at found
  obtain ⟨⟨enabled, pruned⟩, others⟩ := found
  refine ⟨r, reached, enabled, pruned, ?_⟩
  rintro ⟨vs, stored, -, same⟩
  exact of_decide_eq_true (List.all_eq_true.mp others vs stored) same

end PorRun

/-- The third action is pruned at the start although it was never taken first. -/
theorem por_prunes_unequal : ∃ (r : PorRun) (a : Action), r.Reachable PorRun.plainIds true ∧
    a ∈ r.chess.currState.enabled ∧ a.obj ≠ none ∧ a.inst ≠ none ∧
    r.chess.porVisited PorRun.plainIds r.info a = some true ∧
    ¬ r.Covered true a := by
  obtain ⟨r, reached, enabled, pruned, uncovered⟩ := PorRun.reachable_writers
  exact ⟨r, PorRun.third, reached, enabled, nofun, nofun, pruned, uncovered⟩

theorem por_prunes_equal_iff_writers : ∃ (r : PorRun) (b : Bool), r.Reachable PorRun.plainIds true ∧
    r.chess.porVisited PorRun.plainIds r.info PorRun.third = some b ∧
    ((b = true → r.Covered true PorRun.third) ↔
      (r.Cancels PorRun.plainIds true PorRun.third → r.Covered true PorRun.third)) := by
  obtain ⟨r, reached, -⟩ := PorRun.reachable_writers
  obtain ⟨b, found, iff⟩ := por_prunes_equal_iff reached (a := PorRun.third) nofun nofun
  exact ⟨r, b, reached, found, iff⟩

end Maple.Systematic
