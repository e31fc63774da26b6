import Maple.Core.BasicTypes

/-! `pct/scheduler.cpp`. The calls of `HandlePriorityChange` interleave: every atomic operation on
a counter and every plain read of one is a step of its thread. -/
namespace Maple.Pct

/-- What `HandlePostSetup` and `Randomize` fix. -/
structure Config where
  strict : Bool
  depth : ℤ
  changePoints : List ℕ
  newThreadPriorities : List ℤ
  changePriorities : List ℤ

/-- The order of the scheduler: a higher nice value is a lower priority. -/
def Config.Lower (c : Config) (a b : ℤ) : Prop := if c.strict then a < b else b < a

instance (c : Config) (a b : ℤ) : Decidable (c.Lower a b) := by
  unfold Config.Lower
  infer_instance

/-- `low` and `high` are the knobs of the mode, `draw i` is the random instruction count of a round. -/
def randomize (strict : Bool) (depth low high : ℤ) (shuffle : List ℤ → List ℤ) (draw : ℕ → ℕ) :
    Config where
  strict := strict
  depth := depth
  changePriorities := (List.range (depth - 1).toNat).reverse.map fun i : ℕ => if strict then low + i else high - i
  newThreadPriorities := shuffle ((List.range (high - low - depth + 2).toNat).map fun i : ℕ =>
    if strict then low + depth - 1 + i else low + i)
  changePoints := ((List.range (depth - 1).toNat).map draw).insertionSort (· ≤ ·)

example : (randomize true 3 1 6 id fun i => 20 - i).changePriorities = [2, 1] := by decide
example : (randomize false 3 (-2) 3 id fun i => 20 - i).changePriorities = [2, 3] := by decide
example : (randomize false 3 (-2) 3 id fun i => 20 - i).newThreadPriorities = [-2, -1, 0, 1] := by decide

/-- Where a thread is in `HandlePriorityChange`, with the locals that it still uses. -/
inductive Phase where
  | idle
  | counting (c : ℕ)
  | testing (k : ℕ)
  | advancing (cursor : ℕ)
  | fetching (cursor : ℕ)
  | setting (cursor : ℕ) (priority : ℤ)

/-- A passed test of `NeedPriorityChange`. -/
structure Consumption where
  thread : ThreadId
  count : ℕ
  point : ℕ
  deriving DecidableEq

/-- A `SetPriority` of `HandlePriorityChange`, with the priority before. -/
structure Lowering where
  thread : ThreadId
  point : ℕ
  before : Option ℤ
  priority : ℤ
  deriving DecidableEq

structure State where
  startInstCount : Bool := false
  totalInstCount : ℕ := 0
  changePointsCursor : ℕ := 0
  changePrioritiesCursor : ℕ := 0
  newThreadPrioritiesCursor : ℕ := 0
  phase : ThreadId → Phase := fun _ => .idle
  priority : ThreadId → Option ℤ := fun _ => none
  -- what happened: the counts reached, the calls that passed the test and the counts of those that did not
  counts : List ℕ := []
  consumed : List Consumption := []
  lowered : List Lowering := []
  missed : List ℕ := []

inductive Event where
  | setStartInstCount (start : Bool)
  | newThread (t : ThreadId)
  | enter (t : ThreadId) (c : ℕ)
  | count (t : ThreadId)
  | test (t : ThreadId)
  | advance (t : ThreadId)
  | fetch (t : ThreadId)
  | set (t : ThreadId)

namespace State

def goto (s : State) (t : ThreadId) (phase : Phase) : State :=
  { s with phase := Function.update s.phase t phase }

def setPriority (s : State) (t : ThreadId) (priority : ℤ) : State :=
  { s with priority := Function.update s.priority t (some priority) }

/-- `NextNewThreadPriority`, of `HandleThreadStart`. -/
def nextNewThreadPriority (c : Config) (s : State) : Option (ℤ × State) := do
  let cursor := s.newThreadPrioritiesCursor
  let priority ← c.newThreadPriorities[cursor % c.newThreadPriorities.length]?
  return (priority, { s with newThreadPrioritiesCursor := cursor + 1 })

/-- `NextChangePriority`. -/
def nextChangePriority (c : Config) (s : State) : Option (ℤ × State) := do
  let cursor := s.changePrioritiesCursor
  let priority ← c.changePriorities[cursor % c.changePriorities.length]?
  return (priority, { s with changePrioritiesCursor := cursor + 1 })

/-- The result of a test that fails. -/
def miss (s : State) (t : ThreadId) (k : ℕ) : State := { s.goto t .idle with missed := s.missed ++ [k] }

def pass (s : State) (t : ThreadId) (k cursor : ℕ) : State :=
  { s.goto t (.advancing cursor) with consumed := s.consumed ++ [⟨t, k, cursor⟩] }

/-- The read of the cursor in `NeedPriorityChange`, with the two comparisons. -/
def needPriorityChange (c : Config) (s : State) (t : ThreadId) (k : ℕ) : Option State := do
  let cursor := s.changePointsCursor
  if (cursor : ℤ) < c.depth - 1 then
    let point ← c.changePoints[cursor]?
    if point ≤ k then return s.pass t k cursor else return s.miss t k
  else return s.miss t k

/-- `total_inst_count_` is an `unsigned long`. -/
def addAndFetch (s : State) (t : ThreadId) (c : ℕ) : State :=
  let k := (s.totalInstCount + c) % 2 ^ 64
  { s.goto t (.testing k) with totalInstCount := k, counts := s.counts ++ [k] }

/-- A step that is not the next one of its thread, an index out of bounds or a division by zero is `none`. -/
def step (c : Config) (s : State) : Event → Option State
  | .setStartInstCount start => some { s with startInstCount := start }
  | .newThread t => match s.phase t with
    | .idle => do
      let (priority, s) ← s.nextNewThreadPriority c
      return s.setPriority t priority
    | _ => none
  | .enter t n => match s.phase t with
    | .idle => some (if s.startInstCount then s.goto t (.counting n) else s)
    | _ => none
  | .count t => match s.phase t with
    | .counting n => some (s.addAndFetch t n)
    | _ => none
  | .test t => match s.phase t with
    | .testing k => s.needPriorityChange c t k
    | _ => none
  | .advance t => match s.phase t with
    | .advancing cursor => some { s.goto t (.fetching cursor) with changePointsCursor := s.changePointsCursor + 1 }
    | _ => none
  | .fetch t => match s.phase t with
    | .fetching cursor => do
      let (priority, s) ← s.nextChangePriority c
      return s.goto t (.setting cursor priority)
    | _ => none
  | .set t => match s.phase t with
    | .setting cursor priority =>
      some { (s.setPriority t priority).goto t .idle with
        lowered := s.lowered ++ [⟨t, cursor, s.priority t, priority⟩] }
    | _ => none

end State

namespace Phase

/-- The change point of a call that passed the test and is still running. -/
def point? : Phase → Option ℕ
  | .advancing cursor | .fetching cursor | .setting cursor _ => some cursor
  | _ => none

/-- The same, until the cursor is advanced. -/
def advancing? : Phase → Option ℕ
  | .advancing cursor => some cursor
  | _ => none

/-- The same, until the call has its change priority. -/
def waiting? : Phase → Option ℕ
  | .advancing cursor | .fetching cursor => some cursor
  | _ => none

def setting? : Phase → Option (ℕ × ℤ)
  | .setting cursor priority => some (cursor, priority)
  | _ => none

end Phase

/-- The next step of its thread. -/
def Due (s : State) : Event → Prop
  | .setStartInstCount _ => True
  | .newThread t | .enter t _ => s.phase t = .idle
  | .count t => ∃ n, s.phase t = .counting n
  | .test t => ∃ k, s.phase t = .testing k
  | .advance t => ∃ cursor, s.phase t = .advancing cursor
  | .fetch t => ∃ cursor, s.phase t = .fetching cursor
  | .set t => ∃ cursor priority, s.phase t = .setting cursor priority

/-- A call passes the test only while no other call is between its test and its addition to the
cursor, and the calls take their change priorities in the order of their change points. -/
def Allows (c : Config) (s : State) : Event → Prop
  | .test t => ∀ k point, s.phase t = .testing k →
      c.changePoints[s.changePointsCursor]? = some point → point ≤ k → ∀ u, (s.phase u).advancing? = none
  | .fetch t => ∀ i u j, s.phase t = .fetching i → (s.phase u).waiting? = some j → i ≤ j
  | _ => True

end Maple.Pct
