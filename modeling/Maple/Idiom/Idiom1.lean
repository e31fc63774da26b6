import Maple.Core.BasicTypes

/-! `idiom/scheduler_common.cpp`: the handlers of IDIOM_1. One turn of the loop of a handler is a locked
section followed by its `SetPriority` calls. -/
namespace Maple.Idiom.Idiom1

/-- The knobs that `CalculatePriorities` reads. Both modes leave levels between the lower and the higher
priority. -/
structure Knobs where
  strict : Bool
  lowest : ℤ
  highest : ℤ
  room : if strict then lowest + 4 ≤ highest else lowest + 1 < 0 ∧ 0 < highest - 1

namespace Knobs
variable (k : Knobs)

def minPriority : ℤ := if k.strict then k.lowest else k.highest
def normalPriority : ℤ := if k.strict then (k.lowest + k.highest).tdiv 2 else 0
def lowerPriority : ℤ := if k.strict then k.lowest + 1 else k.highest - 1
def higherPriority : ℤ := if k.strict then k.highest - 1 else k.lowest + 1

def newThreadPriorities : List ℤ :=
  if k.strict then
    (List.range (k.higherPriority - k.lowerPriority - 1).toNat).map fun i : ℕ => k.lowerPriority + 1 + i
  else
    (List.range (k.lowerPriority - k.higherPriority - 1).toNat).map fun i : ℕ => k.lowerPriority - 1 - i

/-- `MainThreadPriority` and `NextNewThreadPriority`, with any cursor. -/
def IsInitial (priority : ℤ) : Prop := priority = k.normalPriority ∨ priority ∈ k.newThreadPriorities

example : (Knobs.mk true 1 6 (by decide)).newThreadPriorities = [3, 4] := by decide

theorem lower_ne_min : k.lowerPriority ≠ k.minPriority := by
  unfold lowerPriority minPriority
  split <;> omega

theorem higher_ne_lower : k.higherPriority ≠ k.lowerPriority := by
  have room := k.room
  unfold higherPriority lowerPriority
  split
  · next strict =>
    rw [if_pos strict] at room
    omega
  · next relaxed =>
    rw [if_neg relaxed] at room
    omega

/-- The initial priorities lie between the lower and the higher one. -/
theorem initial_between {priority : ℤ} (initial : k.IsInitial priority) :
    if k.strict then k.lowerPriority < priority ∧ priority < k.higherPriority
    else k.higherPriority < priority ∧ priority < k.lowerPriority := by
  have room := k.room
  unfold IsInitial normalPriority newThreadPriorities at initial
  unfold lowerPriority higherPriority at initial ⊢
  split
  · next strict =>
    simp only [strict, if_true, List.mem_map, List.mem_range] at room initial ⊢
    obtain rfl | ⟨i, below, rfl⟩ := initial
    · have halves := Int.mul_tdiv_add_tmod (k.lowest + k.highest) 2
      have small : (k.lowest + k.highest).tmod 2 < 2 := Int.tmod_lt_of_pos _ (by decide)
      have large : -2 < (k.lowest + k.highest).tmod 2 := Int.lt_tmod_of_pos _ (by decide)
      omega
    · omega
  · next relaxed =>
    simp only [if_neg relaxed, List.mem_map, List.mem_range] at room initial ⊢
    obtain rfl | ⟨i, below, rfl⟩ := initial
    · exact room
    · omega

theorem initial_ne_lower {priority : ℤ} (initial : k.IsInitial priority) : priority ≠ k.lowerPriority := by
  have between := k.initial_between initial
  split at between <;> omega

end Knobs

/-- The knobs, `ori_priority_map_` and whether the build checks `DEBUG_ASSERT`. -/
structure Config extends Knobs where
  debug : Bool
  oriPriority : ThreadId → ℤ
  initial : ∀ t, toKnobs.IsInitial (oriPriority t)

inductive Level where
  | min
  | low
  | normal
  | high
  deriving DecidableEq

/-- A call of `SetPriorityNormal`, `SetPriorityLow` or `SetPriorityHigh`. -/
structure Call where
  target : ThreadId
  level : Level
  deriving DecidableEq

abbrev setPriorityLow (target : ThreadId) : Call := ⟨target, .low⟩
abbrev setPriorityNormal (target : ThreadId) : Call := ⟨target, .normal⟩
abbrev setPriorityHigh (target : ThreadId) : Call := ⟨target, .high⟩

def Config.priorityOf (c : Config) (target : ThreadId) : Level → ℤ
  | .min => c.minPriority
  | .low => c.lowerPriority
  | .normal => c.oriPriority target
  | .high => c.higherPriority

theorem Config.priorityOf_eq_lower {c : Config} {t : ThreadId} {level : Level} :
    c.priorityOf t level = c.lowerPriority ↔ level = .low := by
  cases level with
  | min => simp [priorityOf, c.lower_ne_min.symm]
  | low => simp [priorityOf]
  | normal => simp [priorityOf, c.initial_ne_lower (c.initial t)]
  | high => simp [priorityOf, c.higher_ne_lower]

/-- In the strict mode the higher priority is above all others. -/
theorem Config.priorityOf_lt {c : Config} (strict : c.strict = true) {t : ThreadId} {level : Level}
    (other : level ≠ .high) : c.priorityOf t level < c.higherPriority := by
  have room := c.room
  have between := c.initial_between (c.initial t)
  rw [if_pos strict] at room between
  cases level with
  | min =>
    simp only [priorityOf, Knobs.minPriority, Knobs.higherPriority, if_pos strict]
    omega
  | low =>
    simp only [priorityOf, Knobs.lowerPriority, Knobs.higherPriority, if_pos strict]
    omega
  | normal => exact between.2
  | high => exact absurd rfl other

theorem Config.priorityOf_eq_higher {c : Config} (strict : c.strict = true) {t : ThreadId} {level : Level} :
    c.priorityOf t level = c.higherPriority ↔ level = .high := by
  constructor
  · intro same
    by_contra other
    exact absurd same (Int.ne_of_lt (priorityOf_lt strict other))
  · rintro rfl
    rfl

theorem Config.priorityOf_le {c : Config} (strict : c.strict = true) (t : ThreadId) (level : Level) :
    c.priorityOf t level ≤ c.higherPriority := by
  by_cases high : level = .high
  · exact Int.le_of_eq ((priorityOf_eq_higher strict).mpr high)
  · exact Int.le_of_lt (priorityOf_lt strict high)

abbrev DelaySet := Std.ExtTreeSet ThreadId

/-- `OVERLAP`. -/
def overlap (addr size addr2 size2 : Address) : Bool := addr < addr2 + size2 ∧ addr2 < addr + size

theorem overlap_comm (addr size addr2 size2 : Address) : overlap addr size addr2 size2 = overlap addr2 size2 addr size := by
  simp [overlap, and_comm]

inductive SchedState where
  | init
  | e0
  | e1
  | e0e1
  | e0Watch
  | e0WatchX
  | done
  deriving DecidableEq

/-- `Idiom1SchedStatus`; `none` is `INVALID_THD_ID`. -/
structure SchedStatus where
  state : SchedState := .init
  thdId0 : Option ThreadId := none
  thdId1 : Option ThreadId := none
  addr0 : Address := 0
  addr1 : Address := 0
  size0 : Address := 0
  size1 : Address := 0
  delaySet : DelaySet := ∅

def SchedStatus.setEvent0 (s : SchedStatus) (curr : ThreadId) (addr size : Address) : SchedStatus :=
  { s with thdId0 := some curr, addr0 := addr, size0 := size }

def SchedStatus.setEvent1 (s : SchedStatus) (curr : ThreadId) (addr size : Address) : SchedStatus :=
  { s with thdId1 := some curr, addr1 := addr, size1 := size }

def SchedStatus.delay (s : SchedStatus) (curr : ThreadId) : SchedStatus :=
  { s with delaySet := s.delaySet.insert curr }

def wakeDelaySet (copy : DelaySet) (curr : ThreadId) : List Call :=
  setPriorityHigh curr :: (copy.toList.filter (· ≠ curr)).map setPriorityNormal

/-- One turn of a handler: the status that its locked section leaves, the `SetPriority` calls behind it,
whether another turn follows and whether `ActivelyExposed` was called. -/
structure Turn where
  status : SchedStatus
  calls : List Call := []
  restart : Bool := false
  exposed : Bool := false

section Handlers
-- `choice` is what `RandomChoice` or `Idiom1CheckGiveup` returns; a refused give-up only takes the lock again
variable (c : Config) (priority : ThreadId → ℤ) (s : SchedStatus) (curr : ThreadId) (addr size : Address)
  (choice : Bool)

def beforeEvent0 : Option Turn :=
  match s.state with
  | .init => some {
      status := { s.setEvent0 curr addr size with state := .e0 }
      calls := [setPriorityLow curr]
      restart := true }
  | .e0 => do
    let target ← s.thdId0
    if curr = target then
      assertIn c.debug (priority curr = c.lowerPriority)
      return { status := { s with state := .e0WatchX }, calls := [setPriorityHigh curr] }
    else if choice then
      return {
        status := s.setEvent0 curr addr size
        calls := [setPriorityHigh curr, setPriorityNormal target, setPriorityLow curr]
        restart := true }
    else return { status := s }
  | .e1 => do
    let target ← s.thdId1
    assertIn c.debug (curr ≠ target)
    if overlap addr size s.addr1 s.size1 then
      return {
        status := { s.setEvent0 curr addr size with state := .e0e1 }
        calls := [setPriorityHigh curr, setPriorityNormal target] }
    else if choice then
      return {
        status := { s.setEvent0 curr addr size with state := .e0 }
        calls := [setPriorityHigh curr, setPriorityNormal target, setPriorityLow curr]
        restart := true }
    else return { status := s }
  | .e0Watch => do
    let target ← s.thdId0
    let taken := { s.setEvent0 curr addr size with state := .e0, delaySet := ∅ }
    let wake := wakeDelaySet s.delaySet curr
    if curr = target then
      assertIn c.debug (priority curr = c.lowerPriority)
      if overlap addr size s.addr0 s.size0 then
        if choice then return { status := taken, calls := wake ++ [setPriorityLow curr], restart := true }
        else return { status := s, restart := true }
      else if choice then return { status := taken, calls := wake ++ [setPriorityLow curr], restart := true }
      else return { status := s }
    else if overlap addr size s.addr0 s.size0 then
      if priority curr = c.lowerPriority then
        if choice then
          return {
            status := taken
            calls := wake ++ [setPriorityNormal target, setPriorityLow curr]
            restart := true }
        else return { status := s, restart := true }
      else return {
        status := s.delay curr
        calls := [setPriorityLow curr]
        restart := true }
    else if choice then
      return { status := taken, calls := wake ++ [setPriorityNormal target, setPriorityLow curr], restart := true }
    else return { status := s }
  | _ => some { status := s }

def beforeEvent1 : Option Turn :=
  match s.state with
  | .init => some {
      status := { s.setEvent1 curr addr size with state := .e1 }
      calls := [setPriorityLow curr]
      restart := true }
  | .e0 => do
    let target ← s.thdId0
    assertIn c.debug (curr ≠ target)
    if overlap addr size s.addr0 s.size0 then
      return { status := { s.setEvent1 curr addr size with state := .e0e1 }, calls := [setPriorityHigh target] }
    else if choice then
      return {
        status := { s.setEvent1 curr addr size with state := .e1 }
        calls := [setPriorityHigh curr, setPriorityNormal target, setPriorityLow curr]
        restart := true }
    else return { status := s }
  | .e1 => do
    let target ← s.thdId1
    if curr = target then
      assertIn c.debug (priority curr = c.lowerPriority)
      if choice then return { status := { s with state := .init }, calls := [setPriorityNormal curr] }
      else return { status := s, restart := true }
    else if choice then
      return {
        status := s.setEvent1 curr addr size
        calls := [setPriorityHigh curr, setPriorityNormal target, setPriorityLow curr]
        restart := true }
    else return { status := s }
  | .e0Watch => do
    let target ← s.thdId0
    let taken := { s.setEvent1 curr addr size with state := .e1, delaySet := ∅ }
    let wake := wakeDelaySet s.delaySet curr
    if curr = target then
      assertIn c.debug (priority curr = c.lowerPriority)
      if overlap addr size s.addr0 s.size0 then
        if choice then return { status := taken, calls := wake ++ [setPriorityLow curr], restart := true }
        else return { status := s, restart := true }
      else if choice then return { status := taken, calls := wake ++ [setPriorityLow curr], restart := true }
      else return { status := s }
    else if overlap addr size s.addr0 s.size0 then
      return { status := { taken with state := .e0e1 }, calls := wake ++ [setPriorityNormal target] }
    else if choice then
      return { status := taken, calls := wake ++ [setPriorityNormal target, setPriorityLow curr], restart := true }
    else return { status := s }
  | _ => some { status := s }

def afterEvent0 : Turn :=
  match s.state with
  | .e0WatchX =>
    if s.thdId0 = some curr then { status := { s with state := .e0Watch }, calls := [setPriorityLow curr] }
    else { status := s }
  | .e0e1 =>
    if s.thdId0 = some curr then
      { status := s, calls := (s.thdId1.map setPriorityHigh).toList ++ [setPriorityNormal curr] }
    else { status := s }
  | _ => { status := s }

def afterEvent1 : Turn :=
  match s.state with
  | .e0e1 =>
    if s.thdId1 = some curr then { status := { s with state := .done }, exposed := true } else { status := s }
  | _ => { status := s }

def watchAccess : Option Turn :=
  match s.state with
  | .e0Watch => do
    let target ← s.thdId0
    let givenUp := { s with state := .init, delaySet := ∅ }
    let wake := wakeDelaySet s.delaySet curr
    if curr = target then
      assertIn c.debug (priority curr = c.lowerPriority)
      if overlap addr size s.addr0 s.size0 then
        if choice then return { status := givenUp, calls := wake ++ [setPriorityNormal curr], restart := true }
        else return { status := s, restart := true }
      else return { status := s }
    else if overlap addr size s.addr0 s.size0 then
      if priority curr = c.lowerPriority then
        if choice then
          return {
            status := givenUp
            calls := wake ++ [setPriorityNormal target, setPriorityNormal curr]
            restart := true }
        else return { status := s, restart := true }
      else return {
        status := s.delay curr
        calls := [setPriorityLow curr]
        restart := true }
    else return { status := s }
  | _ => some { status := s }

end Handlers

inductive Handler where
  | beforeEvent0 (addr size : Address)
  | beforeEvent1 (addr size : Address)
  | afterEvent0
  | afterEvent1
  | watchAccess (addr size : Address)
  deriving DecidableEq

/-- A turn of a handler; `none` is a failed `DEBUG_ASSERT` or `INVALID_THD_ID` as a target. -/
def Handler.turn (c : Config) (priority : ThreadId → ℤ) (s : SchedStatus) (curr : ThreadId) (choice : Bool) :
    Handler → Option Turn
  | .beforeEvent0 addr size => Idiom1.beforeEvent0 c priority s curr addr size choice
  | .beforeEvent1 addr size => Idiom1.beforeEvent1 c priority s curr addr size choice
  | .afterEvent0 => some (Idiom1.afterEvent0 s curr)
  | .afterEvent1 => some (Idiom1.afterEvent1 s curr)
  | .watchAccess addr size => Idiom1.watchAccess c priority s curr addr size choice

end Maple.Idiom.Idiom1
