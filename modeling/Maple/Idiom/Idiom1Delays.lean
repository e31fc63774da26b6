import Maple.Idiom.Idiom1
import Maple.Lib.Runs

/-! Delayed threads of IDIOM_1. Each locked section and each `SetPriority` call is one step. -/
namespace Maple.Idiom.Idiom1

inductive Phase where
  | outside
  | ready (h : Handler)
  | calling (h : Handler) (turn : ℕ) (calls : List Call) (restart : Bool)

structure State where
  status : SchedStatus := {}
  priority : ThreadId → ℤ
  phase : ThreadId → Phase := fun _ => .outside
  -- the turns so far, and for a thread the latest turn one of whose calls on it has been executed
  turns : ℕ := 0
  settled : ThreadId → ℕ := fun _ => 0

inductive Event where
  | enter (t : ThreadId) (h : Handler)
  | turn (t : ThreadId) (choice : Bool)
  | setPriority (t : ThreadId)
  | leave (t : ThreadId)
  | schedYield (t : ThreadId)

def State.setPhase (s : State) (t : ThreadId) (phase : Phase) : State :=
  { s with phase := Function.update s.phase t phase }

def State.takeTurn (s : State) (t : ThreadId) (h : Handler) (r : Turn) : State :=
  { s with status := r.status, turns := s.turns + 1 }.setPhase t (.calling h (s.turns + 1) r.calls r.restart)

/-- The first of the calls of turn `turn`. -/
def State.execute (c : Config) (s : State) (t : ThreadId) (h : Handler) (turn : ℕ) (call : Call) (calls : List Call)
    (restart : Bool) : State :=
  { s with
    priority := Function.update s.priority call.target (c.priorityOf call.target call.level)
    settled := Function.update s.settled call.target (max (s.settled call.target) turn) }.setPhase t
      (.calling h turn calls restart)

def State.step (c : Config) (s : State) : Event → Option State
  | .enter t h =>
    match s.phase t with
    | .outside => some (s.setPhase t (.ready h))
    | _ => none
  | .turn t choice =>
    match s.phase t with
    | .ready h => (h.turn c s.priority s.status t choice).map (s.takeTurn t h)
    | _ => none
  | .setPriority t =>
    match s.phase t with
    | .calling h turn (call :: calls) restart => some (s.execute c t h turn call calls restart)
    | _ => none
  | .leave t =>
    match s.phase t with
    | .calling h _ [] restart => some (s.setPhase t (if restart then .ready h else .outside))
    | _ => none
  | .schedYield t =>
    match s.phase t with
    | .outside => some { s with priority := Function.update s.priority t (c.priorityOf t .min) }
    | _ => none

def start (c : Config) : State := { priority := c.oriPriority }

/-- The thread that `status` delays on its own account. -/
def SchedStatus.Holds (s : SchedStatus) (t : ThreadId) : Prop :=
  (s.state = .e0 ∨ s.state = .e0Watch) ∧ s.thdId0 = some t ∨ s.state = .e1 ∧ s.thdId1 = some t

def SchedStatus.Accounts (s : SchedStatus) (t : ThreadId) : Prop :=
  s.Holds t ∨ s.state = .e0Watch ∧ t ∈ s.delaySet

instance (s : SchedStatus) (t : ThreadId) : Decidable (s.Holds t) := by
  unfold SchedStatus.Holds
  infer_instance

instance (s : SchedStatus) (t : ThreadId) : Decidable (s.Accounts t) := by
  unfold SchedStatus.Accounts
  infer_instance

/-- Levels behind a list of calls. -/
def levelsAfter (level : ThreadId → Level) (calls : List Call) : ThreadId → Level :=
  calls.foldl (fun level call => Function.update level call.target call.level) level

section Levels
variable {level : ThreadId → Level} {calls : List Call} {t : ThreadId}

@[simp] theorem levelsAfter_nil : levelsAfter level [] = level := rfl

@[simp] theorem levelsAfter_cons (call : Call) :
    levelsAfter level (call :: calls) = levelsAfter (Function.update level call.target call.level) calls := rfl

@[simp] theorem levelsAfter_append (more : List Call) :
    levelsAfter level (calls ++ more) = levelsAfter (levelsAfter level calls) more := List.foldl_append

theorem levelsAfter_of_untouched (untouched : ∀ call ∈ calls, call.target ≠ t) : levelsAfter level calls t = level t := by
  induction calls generalizing level with
  | nil => rfl
  | cons call rest ih =>
    rw [levelsAfter_cons, ih fun other member => untouched other (List.mem_cons_of_mem _ member),
      Function.update_of_ne (untouched call List.mem_cons_self).symm]

theorem levelsAfter_normal (targets : List ThreadId) :
    levelsAfter level (targets.map setPriorityNormal) t = if t ∈ targets then .normal else level t := by
  induction targets generalizing level with
  | nil => rfl
  | cons target rest ih =>
    rw [List.map_cons, levelsAfter_cons, ih, Function.update_apply]
    simp only [List.mem_cons]
    by_cases member : t ∈ rest
    · simp [member]
    · by_cases same : t = target <;> simp [member, same]

@[simp] theorem levelsAfter_wakeDelaySet (copy : DelaySet) (curr : ThreadId) :
    levelsAfter level (wakeDelaySet copy curr) =
      Function.update (fun t => if t ∈ copy then .normal else level t) curr .high := by
  funext t
  rw [wakeDelaySet, levelsAfter_cons, levelsAfter_normal]
  simp only [List.mem_filter, Std.ExtTreeSet.mem_toList, decide_eq_true_eq, Function.update_apply]
  by_cases same : t = curr <;> simp [same]

end Levels

/-- What the status says about the levels that the turns have given out. -/
structure SchedStatus.Inv (s : SchedStatus) (level : ThreadId → Level) : Prop where
  thdId0 : s.state = .e0 ∨ s.state = .e0Watch → s.thdId0.isSome
  thdId1 : s.state = .e1 → s.thdId1.isSome
  held : ∀ t, s.Holds t → level t = .low
  low : ∀ t, level t = .low → s.Accounts t
  cleared : s.state ≠ .e0Watch → s.delaySet = ∅

section Inv
variable {s : SchedStatus} {level : ThreadId → Level}

theorem SchedStatus.Inv.quiet (inactive : s.state ≠ .e0 ∧ s.state ≠ .e1 ∧ s.state ≠ .e0Watch) (cleared : s.delaySet = ∅)
    (high : ∀ t, level t ≠ .low) : s.Inv level where
  thdId0 active := absurd active (not_or.mpr ⟨inactive.1, inactive.2.2⟩)
  thdId1 active := absurd active inactive.2.1
  held t holds := absurd holds (by simp [Holds, inactive])
  low t low := absurd low (high t)
  cleared _ := cleared

/-- Outside `E0_WATCH` exactly the holder is low. -/
theorem SchedStatus.Inv.single (holder : ThreadId)
    (holds : ∀ t, s.Holds t ↔ t = holder) (cleared : s.delaySet = ∅) (low : ∀ t, level t = .low ↔ t = holder) :
    s.Inv level where
  thdId0 waiting := by
    obtain ⟨_, held⟩ | ⟨state, _⟩ := (holds holder).mpr rfl
    · exact Option.isSome_iff_exists.mpr ⟨holder, held⟩
    · simp [state] at waiting
  thdId1 waiting := by
    obtain ⟨state, _⟩ | ⟨_, held⟩ := (holds holder).mpr rfl
    · simp [waiting] at state
    · exact Option.isSome_iff_exists.mpr ⟨holder, held⟩
  held t held := (low t).mpr ((holds t).mp held)
  low t isLow := Or.inl ((holds t).mpr ((low t).mp isLow))
  cleared _ := cleared

theorem SchedStatus.Inv.low_iff (inv : s.Inv level) (watching : s.state ≠ .e0Watch) (t : ThreadId) :
    level t = .low ↔ s.Holds t :=
  ⟨fun low => (inv.low t low).resolve_right fun delayed => watching delayed.1, inv.held t⟩

end Inv

/-- A thread at the beginning of a turn of `h`. -/
structure Entered (c : Config) (priority : ThreadId → ℤ) (s : SchedStatus) (curr : ThreadId) (h : Handler) : Prop where
  low : s.Holds curr → priority curr = c.lowerPriority
  e0 : s.state = .e0 → s.thdId0 = some curr → ∃ addr size, h = .beforeEvent0 addr size
  e1 : s.state = .e1 → s.thdId1 = some curr → ∃ addr size, h = .beforeEvent1 addr size

structure TurnSpec (s : SchedStatus) (level : ThreadId → Level) (curr : ThreadId) (h : Handler) (r : Turn) : Prop where
  inv : r.status.Inv (levelsAfter level r.calls)
  /-- No turn lowers another thread. -/
  own : ∀ call ∈ r.calls, call.level = .low → call.target = curr
  /-- A thread that begins to be delayed is set low. -/
  called : ∀ t, r.status.Holds t → s.Holds t ∨ ∃ call ∈ r.calls, call.target = t
  e0 : ∀ t, r.status.state = .e0 → r.status.thdId0 = some t →
    t = curr ∧ (∃ addr size, h = .beforeEvent0 addr size) ∧ r.restart = true ∨
      t ≠ curr ∧ s.state = .e0 ∧ s.thdId0 = some t
  e1 : ∀ t, r.status.state = .e1 → r.status.thdId1 = some t →
    t = curr ∧ (∃ addr size, h = .beforeEvent1 addr size) ∧ r.restart = true ∨
      t ≠ curr ∧ s.state = .e1 ∧ s.thdId1 = some t

section Turns
variable {c : Config} {priority : ThreadId → ℤ} {s : SchedStatus} {level : ThreadId → Level} {curr : ThreadId}
  {h : Handler} {choice : Bool}

theorem TurnSpec.same (inv : s.Inv level) (restart : Bool) (spared0 : s.state = .e0 → s.thdId0 ≠ some curr)
    (spared1 : s.state = .e1 → s.thdId1 = some curr → (∃ addr size, h = .beforeEvent1 addr size) ∧ restart = true) :
    TurnSpec s level curr h { status := s, restart } where
  inv := inv
  own call member := nomatch member
  called t held := Or.inl held
  e0 t state holder := Or.inr ⟨fun same => spared0 state (same ▸ holder), state, holder⟩
  e1 t state holder := by
    by_cases same : t = curr
    · exact Or.inl ⟨same, spared1 state (same ▸ holder)⟩
    · exact Or.inr ⟨same, state, holder⟩

theorem TurnSpec.quiet {r : Turn}
    (inactive : r.status.state ≠ .e0 ∧ r.status.state ≠ .e1 ∧ r.status.state ≠ .e0Watch)
    (cleared : r.status.delaySet = ∅) (high : ∀ t, levelsAfter level r.calls t ≠ .low)
    (own : ∀ call ∈ r.calls, call.level = .low → call.target = curr) : TurnSpec s level curr h r where
  inv := .quiet inactive cleared high
  own := own
  called t held := absurd held (by simp [SchedStatus.Holds, inactive])
  e0 t state := absurd state inactive.1
  e1 t state := absurd state inactive.2.1

/-- Behind the calls at most the current thread is low. -/
structure Alone (level : ThreadId → Level) (curr : ThreadId) (front : List Call) : Prop where
  raised : ∀ t, t ≠ curr → levelsAfter level front t ≠ .low
  none : ∀ call ∈ front, call.level ≠ .low

theorem Alone.low_iff {front : List Call} (alone : Alone level curr front) (t : ThreadId) :
    levelsAfter level (front ++ [setPriorityLow curr]) t = .low ↔ t = curr := by
  rw [levelsAfter_append, levelsAfter_cons, levelsAfter_nil, Function.update_apply]
  split
  · next same => simp [same]
  · next other => simp [other, alone.raised t other]

theorem Alone.snoc {front : List Call} (alone : Alone level curr front) {last : Level} (high : last ≠ .low) :
    Alone level curr (front ++ [⟨curr, last⟩]) where
  raised t other := by
    rw [levelsAfter_append, levelsAfter_cons, levelsAfter_nil, Function.update_of_ne other]
    exact alone.raised t other
  none call member := by
    rcases List.mem_append.mp member with before | at_last
    · exact alone.none call before
    · rw [List.mem_singleton.mp at_last]
      exact high

theorem Alone.own {front : List Call} (alone : Alone level curr front) :
    ∀ call ∈ front ++ [setPriorityLow curr], call.level = .low → call.target = curr := by
  intro call member low
  rcases List.mem_append.mp member with before | last
  · exact absurd low (alone.none call before)
  · rw [List.mem_singleton.mp last]

/-- Nobody is delayed any more. -/
theorem TurnSpec.released {r : Turn}
    (inactive : r.status.state ≠ .e0 ∧ r.status.state ≠ .e1 ∧ r.status.state ≠ .e0Watch)
    (cleared : r.status.delaySet = ∅) (alone : Alone level curr r.calls) (self : levelsAfter level r.calls curr ≠ .low) :
    TurnSpec s level curr h r := by
  refine .quiet inactive cleared (fun t => ?_) fun call member low => absurd low (alone.none call member)
  by_cases same : t = curr
  · rwa [same]
  · exact alone.raised t same

theorem TurnSpec.taken0 {status : SchedStatus} {addr size : Address} (front : List Call)
    (handler : h = .beforeEvent0 addr size) (state : status.state = .e0) (holder : status.thdId0 = some curr)
    (cleared : status.delaySet = ∅) (alone : Alone level curr front) :
    TurnSpec s level curr h { status, calls := front ++ [setPriorityLow curr], restart := true } where
  inv := .single curr (by simp [SchedStatus.Holds, state, holder, eq_comm]) cleared alone.low_iff
  own := alone.own
  called t held := by
    obtain ⟨_, same⟩ | ⟨other, _⟩ := held
    · cases holder.symm.trans same
      exact Or.inr ⟨_, List.mem_append_right _ (List.mem_singleton.mpr rfl), rfl⟩
    · simp [state] at other
  e0 t _ same := by
    cases holder.symm.trans same
    exact Or.inl ⟨rfl, ⟨addr, size, handler⟩, rfl⟩
  e1 t other := by simp [state] at other

theorem TurnSpec.taken1 {status : SchedStatus} {addr size : Address} (front : List Call)
    (handler : h = .beforeEvent1 addr size) (state : status.state = .e1) (holder : status.thdId1 = some curr)
    (cleared : status.delaySet = ∅) (alone : Alone level curr front) :
    TurnSpec s level curr h { status, calls := front ++ [setPriorityLow curr], restart := true } where
  inv := .single curr (by simp [SchedStatus.Holds, state, holder, eq_comm]) cleared alone.low_iff
  own := alone.own
  called t held := by
    obtain ⟨other, _⟩ | ⟨_, same⟩ := held
    · simp [state] at other
    · cases holder.symm.trans same
      exact Or.inr ⟨_, List.mem_append_right _ (List.mem_singleton.mpr rfl), rfl⟩
  e0 t other := by simp [state] at other
  e1 t _ same := by
    cases holder.symm.trans same
    exact Or.inl ⟨rfl, ⟨addr, size, handler⟩, rfl⟩

/-- The current thread joins the delay set. -/
theorem TurnSpec.joined (inv : s.Inv level) (watching : s.state = .e0Watch) :
    TurnSpec s level curr h
      { status := s.delay curr, calls := [setPriorityLow curr], restart := true } where
  inv := {
    thdId0 := inv.thdId0
    thdId1 := inv.thdId1
    held := fun t held => by
      have before : level t = .low := inv.held t held
      simp only [levelsAfter_cons, levelsAfter_nil, Function.update_apply, before, ite_self]
    low := fun t low => by
      simp only [levelsAfter_cons, levelsAfter_nil, Function.update_apply] at low
      by_cases same : t = curr
      · exact Or.inr ⟨watching, by simp [SchedStatus.delay, same]⟩
      · rw [if_neg same] at low
        exact (inv.low t low).imp id fun delayed => ⟨watching, by simp [SchedStatus.delay, delayed.2]⟩
    cleared := fun moved => absurd watching moved }
  own call member _ := by
    rw [List.mem_singleton.mp member]
  called t held := Or.inl held
  e0 t state := by simp [SchedStatus.delay, watching] at state
  e1 t state := by simp [SchedStatus.delay, watching] at state

theorem TurnSpec.watched (inv : s.Inv level) (executed : s.state = .e0WatchX) (own : s.thdId0 = some curr) :
    TurnSpec s level curr h
      { status := { s with state := .e0Watch }, calls := [setPriorityLow curr] } where
  inv := {
    thdId0 := fun _ => by simp [own]
    thdId1 := nofun
    held := fun t held => by
      have same : t = curr := by simpa [SchedStatus.Holds, own, eq_comm] using held
      simp [same]
    low := fun t low => by
      simp only [levelsAfter_cons, levelsAfter_nil, Function.update_apply] at low
      by_cases same : t = curr
      · exact Or.inl (Or.inl ⟨Or.inr rfl, by simp [own, same]⟩)
      · rw [if_neg same, inv.low_iff (by simp [executed])] at low
        simp [SchedStatus.Holds, executed] at low
    cleared := fun moved => absurd rfl moved }
  own call member _ := by
    rw [List.mem_singleton.mp member]
  called t held := by
    have same : t = curr := by simpa [SchedStatus.Holds, own, eq_comm] using held
    exact Or.inr ⟨_, List.mem_singleton.mpr rfl, same.symm⟩
  e0 := nofun
  e1 := nofun

theorem level_of_mem_wakeDelaySet {copy : DelaySet} {call : Call} (member : call ∈ wakeDelaySet copy curr) :
    call.level ≠ .low := by
  obtain rfl | normal := List.mem_cons.mp member
  · nofun
  · obtain ⟨t, _, rfl⟩ := List.mem_map.mp normal
    nofun

theorem alone_nil (low : ∀ t, level t = .low → t = curr) : Alone level curr [] :=
  ⟨fun t other isLow => other (low t isLow), nofun⟩

theorem alone_swap {target : ThreadId} (low : ∀ t, level t = .low → t = target) :
    Alone level curr [setPriorityHigh curr, setPriorityNormal target] where
  raised t other := by
    simp only [levelsAfter_cons, levelsAfter_nil, Function.update_apply, if_neg other]
    split
    · nofun
    · next apart => exact fun isLow => apart (low t isLow)
  none := by simp

theorem alone_wake {copy : DelaySet} (low : ∀ t, level t = .low → t = curr ∨ t ∈ copy) :
    Alone level curr (wakeDelaySet copy curr) where
  raised t other := by
    simp only [levelsAfter_wakeDelaySet, Function.update_apply, if_neg other]
    split
    · nofun
    · next absent => exact fun isLow => (low t isLow).elim other absent
  none call := level_of_mem_wakeDelaySet

theorem alone_wakeSwap {copy : DelaySet} {target : ThreadId} (low : ∀ t, level t = .low → t = target ∨ t ∈ copy) :
    Alone level curr (wakeDelaySet copy curr ++ [setPriorityNormal target]) where
  raised t other := by
    simp only [levelsAfter_append, levelsAfter_wakeDelaySet, levelsAfter_cons, levelsAfter_nil, Function.update_apply,
      if_neg other]
    split
    · nofun
    · next apart =>
      split
      · nofun
      · next absent => exact fun isLow => (low t isLow).elim apart absent
  none call member := by
    rcases List.mem_append.mp member with woken | last
    · exact level_of_mem_wakeDelaySet woken
    · rw [List.mem_singleton.mp last]
      nofun

theorem SchedStatus.Inv.init (inv : s.Inv level) (state : s.state = .init) (t : ThreadId) (low : level t = .low) :
    t = curr := by
  rw [inv.low_iff (by simp [state])] at low
  simp [Holds, state] at low

theorem SchedStatus.Inv.e0 (inv : s.Inv level) (state : s.state = .e0) :
    ∃ thd0, s.thdId0 = some thd0 ∧ ∀ t, level t = .low → t = thd0 := by
  obtain ⟨thd0, holder⟩ := Option.isSome_iff_exists.mp (inv.thdId0 (Or.inl state))
  refine ⟨thd0, holder, fun t low => ?_⟩
  rw [inv.low_iff (by simp [state])] at low
  simpa [Holds, state, holder, eq_comm] using low

theorem SchedStatus.Inv.e1 (inv : s.Inv level) (state : s.state = .e1) :
    ∃ thd1, s.thdId1 = some thd1 ∧ ∀ t, level t = .low → t = thd1 := by
  obtain ⟨thd1, holder⟩ := Option.isSome_iff_exists.mp (inv.thdId1 state)
  refine ⟨thd1, holder, fun t low => ?_⟩
  rw [inv.low_iff (by simp [state])] at low
  simpa [Holds, state, holder, eq_comm] using low

theorem SchedStatus.Inv.e0Watch (inv : s.Inv level) (state : s.state = .e0Watch) :
    ∃ thd0, s.thdId0 = some thd0 ∧ ∀ t, level t = .low → t = thd0 ∨ t ∈ s.delaySet := by
  obtain ⟨thd0, holder⟩ := Option.isSome_iff_exists.mp (inv.thdId0 (Or.inr state))
  refine ⟨thd0, holder, fun t low => ?_⟩
  simpa [Accounts, Holds, state, holder, eq_comm] using inv.low t low

theorem beforeEvent0_spec (inv : s.Inv level) {addr size : Address} (handler : h = .beforeEvent0 addr size)
    (entered : Entered c priority s curr h) :
    ∃ r, beforeEvent0 c priority s curr addr size choice = some r ∧ TurnSpec s level curr h r := by
  unfold beforeEvent0
  cases state : s.state with
  | init =>
    exact ⟨_, rfl, .taken0 [] handler rfl rfl (inv.cleared (by simp [state])) (alone_nil (inv.init state))⟩
  | e0 =>
    obtain ⟨thd0, holder, low⟩ := inv.e0 state
    have cleared := inv.cleared (by simp [state])
    simp only [holder, Option.bind_eq_bind, Option.bind_some]
    by_cases own : curr = thd0
    · subst own
      rw [if_pos rfl, assertIn_pos (entered.low (Or.inl ⟨Or.inl state, holder⟩))]
      exact ⟨_, rfl, .released (by simp) cleared ((alone_nil low).snoc nofun) (by simp)⟩
    · rw [if_neg own]
      cases choice with
      | false => exact ⟨_, rfl, .same inv false (fun _ same => own (by simpa [holder, eq_comm] using same)) (by simp [state])⟩
      | true => exact ⟨_, rfl, .taken0 [_, _] handler state rfl cleared (alone_swap low)⟩
  | e1 =>
    obtain ⟨thd1, holder, low⟩ := inv.e1 state
    have cleared := inv.cleared (by simp [state])
    have other : curr ≠ thd1 := fun same => by
      obtain ⟨addr', size', isEvent1⟩ := entered.e1 state (same ▸ holder)
      exact nomatch handler.symm.trans isEvent1
    simp only [holder, Option.bind_eq_bind, Option.bind_some, assertIn_pos other]
    split
    · exact ⟨_, rfl, .released (by simp) cleared (alone_swap low) (by simp [other])⟩
    · cases choice with
      | false => exact ⟨_, rfl, .same inv false (by simp [state]) fun _ same => absurd same (by simp [holder, other.symm])⟩
      | true => exact ⟨_, rfl, .taken0 [_, _] handler rfl rfl cleared (alone_swap low)⟩
  | e0Watch =>
    obtain ⟨thd0, holder, low⟩ := inv.e0Watch state
    have unchanged (restart : Bool) : TurnSpec s level curr h { status := s, restart } :=
      .same inv restart (by simp [state]) (by simp [state])
    simp only [holder, Option.bind_eq_bind, Option.bind_some]
    by_cases own : curr = thd0
    · subst own
      rw [if_pos rfl, assertIn_pos (entered.low (Or.inl ⟨Or.inr state, holder⟩))]
      have woken : TurnSpec s level curr h {
          status := { s.setEvent0 curr addr size with state := .e0, delaySet := ∅ }
          calls := wakeDelaySet s.delaySet curr ++ [setPriorityLow curr]
          restart := true } := .taken0 _ handler rfl rfl rfl (alone_wake low)
      split
      · cases choice with
        | false => exact ⟨_, rfl, unchanged true⟩
        | true => exact ⟨_, rfl, woken⟩
      · cases choice with
        | false => exact ⟨_, rfl, unchanged false⟩
        | true => exact ⟨_, rfl, woken⟩
    · rw [if_neg own]
      have woken : TurnSpec s level curr h {
          status := { s.setEvent0 curr addr size with state := .e0, delaySet := ∅ }
          calls := wakeDelaySet s.delaySet curr ++ [setPriorityNormal thd0, setPriorityLow curr]
          restart := true } := by
        simpa using TurnSpec.taken0 _ handler rfl rfl rfl (alone_wakeSwap low)
      split
      · split
        · cases choice with
          | false => exact ⟨_, rfl, unchanged true⟩
          | true => exact ⟨_, rfl, woken⟩
        · exact ⟨_, rfl, .joined inv state⟩
      · cases choice with
        | false => exact ⟨_, rfl, unchanged false⟩
        | true => exact ⟨_, rfl, woken⟩
  | e0e1 | e0WatchX | done =>
    exact ⟨_, rfl, .same inv false (by simp [state]) (by simp [state])⟩

theorem beforeEvent1_spec (inv : s.Inv level) {addr size : Address} (handler : h = .beforeEvent1 addr size)
    (entered : Entered c priority s curr h) :
    ∃ r, beforeEvent1 c priority s curr addr size choice = some r ∧ TurnSpec s level curr h r := by
  unfold beforeEvent1
  cases state : s.state with
  | init =>
    exact ⟨_, rfl, .taken1 [] handler rfl rfl (inv.cleared (by simp [state])) (alone_nil (inv.init state))⟩
  | e0 =>
    obtain ⟨thd0, holder, low⟩ := inv.e0 state
    have cleared := inv.cleared (by simp [state])
    have other : curr ≠ thd0 := fun same => by
      obtain ⟨addr', size', isEvent0⟩ := entered.e0 state (same ▸ holder)
      exact nomatch handler.symm.trans isEvent0
    simp only [holder, Option.bind_eq_bind, Option.bind_some, assertIn_pos other]
    split
    · refine ⟨_, rfl, .quiet (by simp) cleared (fun t => ?_) (by simp)⟩
      simp only [levelsAfter_cons, levelsAfter_nil, Function.update_apply]
      split
      · nofun
      · next apart => exact fun isLow => apart (low t isLow)
    · cases choice with
      | false => exact ⟨_, rfl, .same inv false (fun _ same => absurd same (by simp [holder, other.symm])) (by simp [state])⟩
      | true => exact ⟨_, rfl, .taken1 [_, _] handler rfl rfl cleared (alone_swap low)⟩
  | e1 =>
    obtain ⟨thd1, holder, low⟩ := inv.e1 state
    have cleared := inv.cleared (by simp [state])
    simp only [holder, Option.bind_eq_bind, Option.bind_some]
    by_cases own : curr = thd1
    · subst own
      rw [if_pos rfl, assertIn_pos (entered.low (Or.inr ⟨state, holder⟩))]
      cases choice with
      | false => exact ⟨_, rfl, .same inv true (by simp [state]) fun _ _ => ⟨⟨addr, size, handler⟩, rfl⟩⟩
      | true => exact ⟨_, rfl, .released (by simp) cleared ((alone_nil low).snoc nofun) (by simp)⟩
    · rw [if_neg own]
      cases choice with
      | false =>
        exact ⟨_, rfl, .same inv false (by simp [state]) fun _ same => absurd same (by simp [holder, Ne.symm own])⟩
      | true => exact ⟨_, rfl, .taken1 [_, _] handler state rfl cleared (alone_swap low)⟩
  | e0Watch =>
    obtain ⟨thd0, holder, low⟩ := inv.e0Watch state
    have unchanged (restart : Bool) : TurnSpec s level curr h { status := s, restart } :=
      .same inv restart (by simp [state]) (by simp [state])
    simp only [holder, Option.bind_eq_bind, Option.bind_some]
    by_cases own : curr = thd0
    · subst own
      rw [if_pos rfl, assertIn_pos (entered.low (Or.inl ⟨Or.inr state, holder⟩))]
      have woken : TurnSpec s level curr h {
          status := { s.setEvent1 curr addr size with state := .e1, delaySet := ∅ }
          calls := wakeDelaySet s.delaySet curr ++ [setPriorityLow curr]
          restart := true } := .taken1 _ handler rfl rfl rfl (alone_wake low)
      split
      · cases choice with
        | false => exact ⟨_, rfl, unchanged true⟩
        | true => exact ⟨_, rfl, woken⟩
      · cases choice with
        | false => exact ⟨_, rfl, unchanged false⟩
        | true => exact ⟨_, rfl, woken⟩
    · rw [if_neg own]
      split
      · exact ⟨_, rfl, .released (by simp) rfl (alone_wakeSwap low) (by simp [own])⟩
      · cases choice with
        | false => exact ⟨_, rfl, unchanged false⟩
        | true =>
          have woken : TurnSpec s level curr h {
              status := { s.setEvent1 curr addr size with state := .e1, delaySet := ∅ }
              calls := wakeDelaySet s.delaySet curr ++ [setPriorityNormal thd0, setPriorityLow curr]
              restart := true } := by
            simpa using TurnSpec.taken1 _ handler rfl rfl rfl (alone_wakeSwap low)
          exact ⟨_, rfl, woken⟩
  | e0e1 | e0WatchX | done =>
    exact ⟨_, rfl, .same inv false (by simp [state]) (by simp [state])⟩

theorem TurnSpec.idle (inv : s.Inv level) (entered : Entered c priority s curr h)
    (other0 : ∀ addr size, h ≠ .beforeEvent0 addr size) (other1 : ∀ addr size, h ≠ .beforeEvent1 addr size)
    (restart : Bool) : TurnSpec s level curr h { status := s, restart } := by
  refine .same inv restart (fun state same => ?_) fun state same => ?_
  · obtain ⟨addr, size, handler⟩ := entered.e0 state same
    exact absurd handler (other0 addr size)
  · obtain ⟨addr, size, handler⟩ := entered.e1 state same
    exact absurd handler (other1 addr size)

theorem afterEvent0_spec (inv : s.Inv level) (handler : h = .afterEvent0) (entered : Entered c priority s curr h) :
    TurnSpec s level curr h (afterEvent0 s curr) := by
  have unchanged : TurnSpec s level curr h { status := s } :=
    .idle inv entered (by simp [handler]) (by simp [handler]) false
  unfold afterEvent0
  split
  · next state =>
    split
    · next own => exact .watched inv state own
    · exact unchanged
  · next state =>
    split
    · next own =>
      have high (t : ThreadId) : level t ≠ .low := by
        rw [Ne, inv.low_iff (by simp [state])]
        simp [SchedStatus.Holds, state]
      refine .quiet (by simp [state]) (inv.cleared (by simp [state])) (fun t => ?_) ?_
      · cases s.thdId1 with
        | none =>
          simp only [Option.map_none, Option.toList_none, List.nil_append, levelsAfter_cons, levelsAfter_nil,
            Function.update_apply]
          split
          · nofun
          · exact high t
        | some thd1 =>
          simp only [Option.map_some, Option.toList_some, List.cons_append, List.nil_append, levelsAfter_cons,
            levelsAfter_nil, Function.update_apply]
          split
          · nofun
          · split
            · nofun
            · exact high t
      · cases s.thdId1 <;> simp
    · exact unchanged
  · exact unchanged

theorem afterEvent1_spec (inv : s.Inv level) (handler : h = .afterEvent1) (entered : Entered c priority s curr h) :
    TurnSpec s level curr h (afterEvent1 s curr) := by
  have unchanged : TurnSpec s level curr h { status := s } :=
    .idle inv entered (by simp [handler]) (by simp [handler]) false
  unfold afterEvent1
  split
  · next state =>
    split
    · refine .quiet (by simp) (inv.cleared (by simp [state])) (fun t => ?_) nofun
      rw [Ne, levelsAfter_nil, inv.low_iff (by simp [state])]
      simp [SchedStatus.Holds, state]
    · exact unchanged
  · exact unchanged

theorem watchAccess_spec (inv : s.Inv level) {addr size : Address} (handler : h = .watchAccess addr size)
    (entered : Entered c priority s curr h) :
    ∃ r, watchAccess c priority s curr addr size choice = some r ∧ TurnSpec s level curr h r := by
  have unchanged := TurnSpec.idle inv entered (by simp [handler]) (by simp [handler])
  unfold watchAccess
  split
  · next state =>
    obtain ⟨thd0, holder, low⟩ := inv.e0Watch state
    simp only [holder, Option.bind_eq_bind, Option.bind_some]
    by_cases own : curr = thd0
    · subst own
      rw [if_pos rfl, assertIn_pos (entered.low (Or.inl ⟨Or.inr state, holder⟩))]
      split
      · cases choice with
        | false => exact ⟨_, rfl, unchanged true⟩
        | true => exact ⟨_, rfl, .released (by simp) rfl ((alone_wake low).snoc nofun) (by simp)⟩
      · exact ⟨_, rfl, unchanged false⟩
    · rw [if_neg own]
      split
      · split
        · cases choice with
          | false => exact ⟨_, rfl, unchanged true⟩
          | true =>
            have alone : Alone level curr (wakeDelaySet s.delaySet curr ++ [setPriorityNormal thd0, setPriorityNormal curr]) := by
              simpa using (alone_wakeSwap low).snoc (show Level.normal ≠ .low from nofun)
            exact ⟨_, rfl, .released (by simp) rfl alone (by simp)⟩
        · exact ⟨_, rfl, .joined inv state⟩
      · exact ⟨_, rfl, unchanged false⟩
  · exact ⟨_, rfl, unchanged false⟩

theorem turn_spec (choice : Bool) (inv : s.Inv level) (entered : Entered c priority s curr h) :
    ∃ r, h.turn c priority s curr choice = some r ∧ TurnSpec s level curr h r := by
  cases h with
  | beforeEvent0 addr size => exact beforeEvent0_spec inv rfl entered
  | beforeEvent1 addr size => exact beforeEvent1_spec inv rfl entered
  | afterEvent0 => exact ⟨_, rfl, afterEvent0_spec inv rfl entered⟩
  | afterEvent1 => exact ⟨_, rfl, afterEvent1_spec inv rfl entered⟩
  | watchAccess addr size => exact watchAccess_spec inv rfl entered

end Turns

theorem exists_last (level : ThreadId → Level) {calls : List Call} {t : ThreadId}
    (touched : ∃ call ∈ calls, call.target = t) :
    ∃ front back, calls = front ++ ⟨t, levelsAfter level calls t⟩ :: back ∧ ∀ call ∈ back, call.target ≠ t := by
  induction calls generalizing level with
  | nil => simp at touched
  | cons call rest ih =>
    by_cases later : ∃ call ∈ rest, call.target = t
    · obtain ⟨front, back, split, last⟩ := ih _ later
      exact ⟨call :: front, back, by rw [levelsAfter_cons, List.cons_append, ← split], last⟩
    · have untouched : ∀ call ∈ rest, call.target ≠ t := fun call member same => later ⟨call, member, same⟩
      obtain ⟨first, member, same⟩ := touched
      obtain rfl := (List.mem_cons.mp member).resolve_right fun inside => untouched first inside same
      refine ⟨[], rest, ?_, untouched⟩
      rw [levelsAfter_cons, levelsAfter_of_untouched untouched, ← same, Function.update_self, List.nil_append]

/-- A thread whose loop of `h` goes on. -/
def Phase.Loops (phase : Phase) (h : Handler) : Prop := phase = .ready h ∨ ∃ n calls, phase = .calling h n calls true

namespace State
variable (s : State)

/-- The calls of turn `n` that `t` has not executed yet. -/
def Calls (t : ThreadId) (n : ℕ) (calls : List Call) : Prop := ∃ h restart, s.phase t = .calling h n calls restart

/-- The level of `u` from turn `due u` is still to be set. -/
def Pending (due : ThreadId → ℕ) (level : ThreadId → Level) (u : ThreadId) : Prop :=
  ∃ t front back, s.Calls t (due u) (front ++ ⟨u, level u⟩ :: back) ∧ ∀ call ∈ back, call.target ≠ u

structure Settled (c : Config) (due : ThreadId → ℕ) (level : ThreadId → Level) (u : ThreadId) : Prop where
  settled : s.settled u = due u
  priority : s.priority u = c.priorityOf u (level u) ∨ s.priority u = c.minPriority ∧ ¬ s.status.Holds u
  executed : ∀ t calls, s.Calls t (due u) calls → ∀ call ∈ calls, call.target ≠ u

/-- `due t` is the last turn that has decided the priority of `t`, and `level t` what it has decided. -/
structure Inv (c : Config) (due : ThreadId → ℕ) (level : ThreadId → Level) : Prop where
  status : s.status.Inv level
  turn_le : ∀ t n calls, s.Calls t n calls → n ≤ s.turns
  due_le : ∀ t, due t ≤ s.turns
  settled_le : ∀ t, s.settled t ≤ due t
  calls_le : ∀ t n calls, s.Calls t n calls → ∀ call ∈ calls, n ≤ due call.target
  own : ∀ t n calls, s.Calls t n calls → ∀ call ∈ calls, call.level = .low → call.target = t
  unique : ∀ t u n calls calls', s.Calls t n calls → s.Calls u n calls' → t = u
  pending : ∀ t, s.Pending due level t ∨ s.Settled c due level t
  e0 : ∀ t, s.status.state = .e0 → s.status.thdId0 = some t → ∃ addr size, (s.phase t).Loops (.beforeEvent0 addr size)
  e1 : ∀ t, s.status.state = .e1 → s.status.thdId1 = some t → ∃ addr size, (s.phase t).Loops (.beforeEvent1 addr size)

end State

section Steps
variable {c : Config} {s : State} {due : ThreadId → ℕ} {level : ThreadId → Level} {t : ThreadId}

@[simp] theorem setPhase_calls (phase : Phase) (u : ThreadId) (n : ℕ) (calls : List Call) :
    (s.setPhase t phase).Calls u n calls ↔
      if u = t then ∃ h restart, phase = .calling h n calls restart else s.Calls u n calls := by
  simp only [State.Calls, State.setPhase, Function.update_apply]
  split <;> rfl

theorem setPhase_calling (h : Handler) (turn : ℕ) (calls : List Call) (restart : Bool) (u : ThreadId) (n : ℕ)
    (list : List Call) :
    (s.setPhase t (.calling h turn calls restart)).Calls u n list ↔
      u = t ∧ n = turn ∧ list = calls ∨ u ≠ t ∧ s.Calls u n list := by
  rw [setPhase_calls]
  split
  · next same =>
    simp only [same, true_and, ne_eq, not_true_eq_false, false_and, or_false, Phase.calling.injEq]
    exact ⟨fun ⟨_, _, _, number, left, _⟩ => ⟨number.symm, left.symm⟩,
      fun ⟨number, left⟩ => ⟨_, _, rfl, number.symm, left.symm, rfl⟩⟩
  · next other => simp [other]

theorem takeTurn_calls (h : Handler) (r : Turn) (u : ThreadId) (n : ℕ) (calls : List Call) :
    (s.takeTurn t h r).Calls u n calls ↔
      u = t ∧ n = s.turns + 1 ∧ calls = r.calls ∨ u ≠ t ∧ s.Calls u n calls := setPhase_calling _ _ _ _ _ _ _

theorem execute_calls (h : Handler) (turn : ℕ) (call : Call) (calls : List Call) (restart : Bool) (u : ThreadId)
    (n : ℕ) (list : List Call) :
    (s.execute c t h turn call calls restart).Calls u n list ↔
      u = t ∧ n = turn ∧ list = calls ∨ u ≠ t ∧ s.Calls u n list := setPhase_calling _ _ _ _ _ _ _

theorem execute_loops {h : Handler} {turn : ℕ} {call : Call} {calls : List Call} {restart : Bool}
    (calling : s.phase t = .calling h turn (call :: calls) restart) (u : ThreadId) (h' : Handler)
    (looping : (s.phase u).Loops h') : ((s.execute c t h turn call calls restart).phase u).Loops h' := by
  simp only [State.execute, State.setPhase, Function.update_apply]
  split
  · next own =>
    subst own
    obtain ready | ⟨n, list, called⟩ := looping
    · exact nomatch calling.symm.trans ready
    · cases calling.symm.trans called
      exact Or.inr ⟨turn, calls, rfl⟩
  · exact looping

theorem start_inv : (start c).Inv c (fun _ => 0) fun _ => .normal where
  status := .quiet (by simp [start]) rfl (by simp)
  turn_le t n calls calling := by simp [State.Calls, start] at calling
  due_le _ := Nat.le_refl 0
  settled_le _ := Nat.le_refl 0
  calls_le t n calls calling := by simp [State.Calls, start] at calling
  own t n calls calling := by simp [State.Calls, start] at calling
  unique t u n calls calls' calling := by simp [State.Calls, start] at calling
  pending t := Or.inr ⟨rfl, Or.inl rfl, fun u calls calling => by simp [State.Calls, start] at calling⟩
  e0 t state := by simp [start] at state
  e1 t state := by simp [start] at state

/-- A thread without calls left enters or leaves a handler, or begins another turn. -/
theorem State.Inv.move (inv : s.Inv c due level) {phase : Phase} (idle : ∀ n calls, s.Calls t n calls → calls = [])
    (silent : ∀ h n calls restart, phase ≠ .calling h n calls restart)
    (loops : ∀ h, (s.phase t).Loops h → phase.Loops h) : (s.setPhase t phase).Inv c due level := by
  have same : ∀ u n calls, (s.setPhase t phase).Calls u n calls → s.Calls u n calls := by
    intro u n calls calling
    rw [setPhase_calls] at calling
    split at calling
    · obtain ⟨h, restart, called⟩ := calling
      exact absurd called (silent h n calls restart)
    · exact calling
  have phases : ∀ u h, (s.phase u).Loops h → ((s.setPhase t phase).phase u).Loops h := by
    intro u h looping
    simp only [State.setPhase, Function.update_apply]
    split
    · next own => exact loops h (own ▸ looping)
    · exact looping
  exact {
    status := inv.status
    turn_le := fun u n calls calling => inv.turn_le u n calls (same u n calls calling)
    due_le := inv.due_le
    settled_le := inv.settled_le
    calls_le := fun u n calls calling => inv.calls_le u n calls (same u n calls calling)
    own := fun u n calls calling => inv.own u n calls (same u n calls calling)
    unique := fun u v n calls calls' first second => inv.unique u v n calls calls' (same _ _ _ first) (same _ _ _ second)
    pending := fun u => by
      obtain ⟨v, front, back, calling, last⟩ | settled := inv.pending u
      · refine Or.inl ⟨v, front, back, ?_, last⟩
        rw [setPhase_calls, if_neg]
        · exact calling
        · rintro rfl
          simpa using idle _ _ calling
      · exact Or.inr ⟨settled.settled, settled.priority, fun v calls calling =>
          settled.executed v calls (same _ _ _ calling)⟩
    e0 := fun u state holder => (inv.e0 u state holder).imp fun _ => Exists.imp fun _ => phases u _
    e1 := fun u state holder => (inv.e1 u state holder).imp fun _ => Exists.imp fun _ => phases u _ }

/-- At the beginning of a turn the thread itself has no call left. -/
theorem State.Inv.entered (inv : s.Inv c due level) {h : Handler} (ready : s.phase t = .ready h) :
    Entered c s.priority s.status t h where
  low holds := by
    have low := inv.status.held t holds
    obtain ⟨u, front, back, calling, last⟩ | settled := inv.pending t
    · have same := inv.own u _ _ calling ⟨t, level t⟩ (by simp) low
      obtain rfl : t = u := same
      obtain ⟨h', restart, called⟩ := calling
      exact nomatch ready.symm.trans called
    · obtain set | ⟨_, free⟩ := settled.priority
      · rw [set, low]
        rfl
      · exact absurd holds free
  e0 state holder := by
    obtain ⟨addr, size, looping | ⟨n, calls, called⟩⟩ := inv.e0 t state holder
    · exact ⟨addr, size, Phase.ready.inj (ready.symm.trans looping)⟩
    · exact nomatch ready.symm.trans called
  e1 state holder := by
    obtain ⟨addr, size, looping | ⟨n, calls, called⟩⟩ := inv.e1 t state holder
    · exact ⟨addr, size, Phase.ready.inj (ready.symm.trans looping)⟩
    · exact nomatch ready.symm.trans called

/-- The turns that have decided the priorities behind a turn with these calls. -/
def dueAfter (due : ThreadId → ℕ) (turn : ℕ) (calls : List Call) (u : ThreadId) : ℕ :=
  if ∃ call ∈ calls, call.target = u then turn else due u

theorem State.Inv.turn (inv : s.Inv c due level) {h : Handler} (ready : s.phase t = .ready h) {r : Turn}
    (spec : TurnSpec s.status level t h r) :
    (s.takeTurn t h r).Inv c (dueAfter due (s.turns + 1) r.calls) (levelsAfter level r.calls) := by
  have calls_iff := @takeTurn_calls s t h r
  have idle (n : ℕ) (calls : List Call) : ¬ s.Calls t n calls := fun ⟨_, _, called⟩ => nomatch ready.symm.trans called
  have due_le (u : ThreadId) : due u ≤ dueAfter due (s.turns + 1) r.calls u := by
    have before := inv.due_le u
    unfold dueAfter
    split <;> omega
  have phases (u : ThreadId) (other : u ≠ t) (h' : Handler) (looping : (s.phase u).Loops h') :
      ((s.takeTurn t h r).phase u).Loops h' := by
    simpa [State.takeTurn, State.setPhase, Function.update_of_ne other] using looping
  refine {
    status := spec.inv
    turn_le := fun u n calls calling => ?_
    due_le := fun u => ?_
    settled_le := fun u => Nat.le_trans (inv.settled_le u) (due_le u)
    calls_le := fun u n calls calling call member => ?_
    own := fun u n calls calling call member low => ?_
    unique := fun u v n calls calls' first second => ?_
    pending := fun u => ?_
    e0 := fun u state holder => ?_
    e1 := fun u state holder => ?_ }
  · obtain ⟨_, rfl, _⟩ | ⟨_, before⟩ := (calls_iff u n calls).mp calling
    · exact Nat.le_refl _
    · exact Nat.le_succ_of_le (inv.turn_le u n calls before)
  · have before := inv.due_le u
    simp only [dueAfter, State.takeTurn, State.setPhase]
    split <;> omega
  · obtain ⟨_, rfl, rfl⟩ | ⟨_, before⟩ := (calls_iff u n calls).mp calling
    · exact Nat.le_of_eq (if_pos ⟨call, member, rfl⟩).symm
    · exact Nat.le_trans (inv.calls_le u n calls before call member) (due_le _)
  · obtain ⟨rfl, rfl, rfl⟩ | ⟨_, before⟩ := (calls_iff u n calls).mp calling
    · exact spec.own call member low
    · exact inv.own u n calls before call member low
  · obtain ⟨rfl, rfl, rfl⟩ | ⟨apart, before⟩ := (calls_iff u n calls).mp first
    · obtain ⟨rfl, _⟩ | ⟨_, before⟩ := (calls_iff v _ calls').mp second
      · rfl
      · exact absurd (inv.turn_le v _ calls' before) (by omega)
    · obtain ⟨rfl, rfl, _⟩ | ⟨_, before'⟩ := (calls_iff v n calls').mp second
      · exact absurd (inv.turn_le u _ calls before) (by omega)
      · exact inv.unique u v n calls calls' before before'
  · by_cases touched : ∃ call ∈ r.calls, call.target = u
    · obtain ⟨front, back, split, last⟩ := exists_last level touched
      refine Or.inl ⟨t, front, back, (calls_iff _ _ _).mpr (Or.inl ⟨rfl, if_pos touched, split.symm⟩), last⟩
    · have untouched : ∀ call ∈ r.calls, call.target ≠ u := fun call member same => touched ⟨call, member, same⟩
      have same : dueAfter due (s.turns + 1) r.calls u = due u := if_neg touched
      have kept : levelsAfter level r.calls u = level u := levelsAfter_of_untouched untouched
      obtain ⟨v, front, back, calling, last⟩ | settled := inv.pending u
      · have apart : v ≠ t := fun own => idle _ _ (own ▸ calling)
        exact Or.inl ⟨v, front, back, (calls_iff _ _ _).mpr (Or.inr ⟨apart, by rwa [same, kept]⟩), last⟩
      · refine Or.inr ⟨settled.settled.trans same.symm, ?_, fun v calls calling call member => ?_⟩
        · rw [kept]
          refine settled.priority.imp id fun lowest => ⟨lowest.1, fun holds => ?_⟩
          exact (spec.called u holds).elim lowest.2 touched
        · rw [same] at calling
          obtain ⟨_, number, _⟩ | ⟨_, before⟩ := (calls_iff v _ calls).mp calling
          · exact absurd (inv.due_le u) (by omega)
          · exact settled.executed v calls before call member
  · obtain ⟨rfl, ⟨addr, size, rfl⟩, restart⟩ | ⟨other, before, held⟩ := spec.e0 u state holder
    · refine ⟨addr, size, Or.inr ⟨s.turns + 1, r.calls, ?_⟩⟩
      simp [State.takeTurn, State.setPhase, restart]
    · exact (inv.e0 u before held).imp fun _ => Exists.imp fun _ => phases u other _
  · obtain ⟨rfl, ⟨addr, size, rfl⟩, restart⟩ | ⟨other, before, held⟩ := spec.e1 u state holder
    · refine ⟨addr, size, Or.inr ⟨s.turns + 1, r.calls, ?_⟩⟩
      simp [State.takeTurn, State.setPhase, restart]
    · exact (inv.e1 u before held).imp fun _ => Exists.imp fun _ => phases u other _

/-- A call is executed, unless it would undo a call of a later turn. -/
theorem State.Inv.setPriority (inv : s.Inv c due level) {h : Handler} {turn : ℕ} {call : Call} {calls : List Call}
    {restart : Bool} (calling : s.phase t = .calling h turn (call :: calls) restart)
    (inOrder : s.settled call.target ≤ turn ∨ s.priority call.target = c.priorityOf call.target call.level) :
    (s.execute c t h turn call calls restart).Inv c due level := by
  have here : s.Calls t turn (call :: calls) := ⟨h, restart, calling⟩
  have calls_iff := @execute_calls c s t h turn call calls restart
  -- the calls left are calls of before
  have earlier (u : ThreadId) (n : ℕ) (list : List Call)
      (left : u = t ∧ n = turn ∧ list = calls ∨ u ≠ t ∧ s.Calls u n list) :
      ∃ before, s.Calls u n before ∧ ∀ call ∈ list, call ∈ before := by
    obtain ⟨rfl, rfl, rfl⟩ | ⟨_, before⟩ := left
    · exact ⟨_, here, fun _ => List.mem_cons_of_mem _⟩
    · exact ⟨list, before, fun _ => id⟩
  have phases := @execute_loops c s t h turn call calls restart calling
  have due_ge : turn ≤ due call.target := inv.calls_le t turn _ here call List.mem_cons_self
  refine {
    status := inv.status
    turn_le := fun u n list left => ?_
    due_le := inv.due_le
    settled_le := fun u => ?_
    calls_le := fun u n list left other member => ?_
    own := fun u n list left other member => ?_
    unique := fun u v n first second leftU leftV => ?_
    pending := fun u => ?_
    e0 := fun u state holder => (inv.e0 u state holder).imp fun _ => Exists.imp fun _ => phases u _
    e1 := fun u state holder => (inv.e1 u state holder).imp fun _ => Exists.imp fun _ => phases u _ }
  · obtain ⟨before, calledU, _⟩ := earlier u n list ((calls_iff u n list).mp left)
    exact inv.turn_le u n before calledU
  · have bound := inv.settled_le u
    simp only [State.execute, State.setPhase, Function.update_apply]
    split
    · next same =>
      subst same
      exact Nat.max_le.mpr ⟨bound, due_ge⟩
    · exact bound
  · obtain ⟨before, calledU, inside⟩ := earlier u n list ((calls_iff u n list).mp left)
    exact inv.calls_le u n before calledU other (inside other member)
  · obtain ⟨before, calledU, inside⟩ := earlier u n list ((calls_iff u n list).mp left)
    exact inv.own u n before calledU other (inside other member)
  · obtain ⟨before, calledU, _⟩ := earlier u n first ((calls_iff u n first).mp leftU)
    obtain ⟨before', calledV, _⟩ := earlier v n second ((calls_iff v n second).mp leftV)
    exact inv.unique u v n before before' calledU calledV
  · obtain ⟨v, front, back, calledV, last⟩ | settled := inv.pending u
    · by_cases own : v = t
      · subst own
        obtain ⟨_, _, same⟩ := calledV
        obtain ⟨_, rfl, split, _⟩ := Phase.calling.inj (calling.symm.trans same)
        cases front with
        | cons first front =>
          obtain ⟨rfl, rest⟩ := List.cons.inj split
          exact Or.inl ⟨v, front, back, (calls_iff _ _ _).mpr (Or.inl ⟨rfl, rfl, rest.symm⟩), last⟩
        | nil =>
          -- the last call of the turn on `u`
          obtain ⟨rfl, rfl⟩ := List.cons.inj split
          refine Or.inr ⟨?_, Or.inl ?_, fun w list left other member => ?_⟩
          · simpa [State.execute, State.setPhase] using Nat.max_eq_right (inv.settled_le u)
          · simp [State.execute, State.setPhase]
          · obtain ⟨_, _, rfl⟩ | ⟨apart, before⟩ := (calls_iff w _ list).mp left
            · exact last other member
            · exact absurd (inv.unique w v _ _ _ before here) apart
      · exact Or.inl ⟨v, front, back, (calls_iff _ _ _).mpr (Or.inr ⟨own, calledV⟩), last⟩
    · refine Or.inr ⟨?_, ?_, fun w list left => ?_⟩
      · simp only [State.execute, State.setPhase, Function.update_apply]
        split
        · next same =>
          rw [← same, settled.settled]
          exact Nat.max_eq_left (same ▸ due_ge)
        · exact settled.settled
      · simp only [State.execute, State.setPhase, Function.update_apply]
        split
        · next same =>
          -- a call of an earlier turn, which changes nothing
          subst same
          have stale : ¬ s.settled call.target ≤ turn := fun late => by
            have number : turn = due call.target := Nat.le_antisymm due_ge (settled.settled ▸ late)
            exact settled.executed t _ (number ▸ here) call List.mem_cons_self rfl
          rw [← inOrder.resolve_left stale]
          exact settled.priority
        · exact settled.priority
      · obtain ⟨before, calledW, inside⟩ := earlier w _ list ((calls_iff w _ list).mp left)
        exact fun other member => settled.executed w before calledW other (inside other member)

/-- A thread that is not delayed on its own account yields. -/
theorem State.Inv.schedYield (inv : s.Inv c due level) (free : ¬ s.status.Holds t) :
    ({ s with priority := Function.update s.priority t (c.priorityOf t .min) } : State).Inv c due level where
  status := inv.status
  turn_le := inv.turn_le
  due_le := inv.due_le
  settled_le := inv.settled_le
  calls_le := inv.calls_le
  own := inv.own
  unique := inv.unique
  pending u := by
    refine (inv.pending u).imp id fun settled => ⟨settled.settled, ?_, settled.executed⟩
    simp only [Function.update_apply]
    split
    · next same => exact Or.inr ⟨rfl, same ▸ free⟩
    · exact settled.priority
  e0 := inv.e0
  e1 := inv.e1

/-- No call undoes one of a later turn, and the thread that `E0_WATCH` delays does not yield. -/
def State.Ordered (c : Config) (s : State) : Event → Prop
  | .setPriority t =>
    match s.phase t with
    | .calling _ turn (call :: _) _ =>
      s.settled call.target ≤ turn ∨ s.priority call.target = c.priorityOf call.target call.level
    | _ => True
  | .schedYield t => ¬ (s.status.state = .e0Watch ∧ s.status.thdId0 = some t)
  | _ => True

instance (c : Config) (s : State) (e : Event) : Decidable (s.Ordered c e) := by
  unfold State.Ordered
  split
  · split <;> infer_instance
  · infer_instance
  · infer_instance

theorem State.Inv.step (inv : s.Inv c due level) {e : Event} (ordered : s.Ordered c e) {next : State}
    (stepped : s.step c e = some next) : ∃ due level, next.Inv c due level := by
  cases e with
  | enter t h =>
    simp only [State.step] at stepped
    split at stepped
    · next outside =>
      cases stepped
      refine ⟨due, level, inv.move (fun n calls calling => ?_) (by simp) fun h' looping => ?_⟩
      · obtain ⟨_, _, called⟩ := calling
        exact nomatch outside.symm.trans called
      · obtain ready | ⟨_, _, called⟩ := looping
        · exact nomatch outside.symm.trans ready
        · exact nomatch outside.symm.trans called
    · exact nomatch stepped
  | turn t choice =>
    simp only [State.step] at stepped
    split at stepped
    · next h ready =>
      obtain ⟨r, turned, same⟩ := Option.map_eq_some_iff.mp stepped
      obtain ⟨r', turned', spec⟩ := turn_spec choice inv.status (inv.entered ready)
      cases turned.symm.trans turned'
      exact ⟨_, _, same ▸ inv.turn ready spec⟩
    · exact nomatch stepped
  | setPriority t =>
    simp only [State.step] at stepped
    split at stepped
    · next h turn call calls restart calling =>
      cases stepped
      rw [State.Ordered, calling] at ordered
      exact ⟨due, level, inv.setPriority calling ordered⟩
    · exact nomatch stepped
  | leave t =>
    simp only [State.step] at stepped
    split at stepped
    · next h turn restart calling =>
      cases stepped
      refine ⟨due, level, inv.move (fun n calls called => ?_) ?_ fun h' looping => ?_⟩
      · obtain ⟨_, _, called⟩ := called
        cases calling.symm.trans called
        rfl
      · cases restart <;> simp
      · obtain ready | ⟨_, _, called⟩ := looping
        · exact nomatch calling.symm.trans ready
        · cases calling.symm.trans called
          exact Or.inl rfl
    · exact nomatch stepped
  | schedYield t =>
    simp only [State.step] at stepped
    split at stepped
    · next outside =>
      cases stepped
      refine ⟨due, level, inv.schedYield ?_⟩
      rintro (⟨state | state, holder⟩ | ⟨state, holder⟩)
      · obtain ⟨_, _, ready | ⟨_, _, called⟩⟩ := inv.e0 t state holder
        · exact nomatch outside.symm.trans ready
        · exact nomatch outside.symm.trans called
      · exact ordered ⟨state, holder⟩
      · obtain ⟨_, _, ready | ⟨_, _, called⟩⟩ := inv.e1 t state holder
        · exact nomatch outside.symm.trans ready
        · exact nomatch outside.symm.trans called
    · exact nomatch stepped

/-- When no thread is inside a handler, the last decisions stand. -/
theorem State.Inv.accounted (inv : s.Inv c due level) (quiescent : ∀ t, s.phase t = .outside)
    (low : s.priority t = c.lowerPriority) : s.status.Accounts t := by
  obtain ⟨u, front, back, ⟨_, _, called⟩, _⟩ | settled := inv.pending t
  · exact nomatch (quiescent u).symm.trans called
  · obtain same | ⟨lowest, _⟩ := settled.priority
    · exact inv.status.low t (Config.priorityOf_eq_lower.mp (same.symm.trans low))
    · exact absurd (low.symm.trans lowest) c.lower_ne_min

end Steps

/-- What a state must satisfy: low threads are accounted for when no thread is inside a handler, the delay set
is empty outside `E0_WATCH`, and no `DEBUG_ASSERT` is about to fail. -/
structure State.Sound (c : Config) (s : State) : Prop where
  accounted : (∀ t, s.phase t = .outside) → ∀ t, s.priority t = c.lowerPriority → s.status.Accounts t
  cleared : s.status.state ≠ .e0Watch → s.status.delaySet = ∅
  asserted : ∀ t h choice, s.phase t = .ready h → (h.turn c s.priority s.status t choice).isSome

theorem delays_accounted {c : Config} {s : State}
    (reached : Runs.Reach (· = start c) (State.Ordered c) (State.step c) s) : s.Sound c := by
  have invariant : ∃ due level, s.Inv c due level :=
    reached.invariant (fun s => ∃ due level, s.Inv c due level) (fun s fresh => ⟨_, _, fresh ▸ start_inv⟩)
      fun s e next ⟨due, level, inv⟩ ordered stepped => inv.step ordered stepped
  obtain ⟨due, level, inv⟩ := invariant
  exact {
    accounted := fun quiescent t low => inv.accounted quiescent low
    cleared := inv.status.cleared
    asserted := fun t h choice ready => by
      obtain ⟨r, turned, _⟩ := turn_spec choice inv.status (inv.entered ready)
      simp [turned] }

/-- The default knobs without ordered priorities. -/
def defaults : Config where
  strict := true
  lowest := 1
  highest := 99
  room := by decide
  debug := true
  oriPriority _ := 50
  initial _ := Or.inl (by decide)

/-- A thread executes event 0 and is delayed behind it. -/
def delayed : List Event :=
  [.enter 0 (.beforeEvent0 0 4), .turn 0 true, .setPriority 0, .leave 0, .turn 0 true, .setPriority 0, .leave 0,
    .enter 0 .afterEvent0, .turn 0 true, .setPriority 0, .leave 0]

/-- Thread 1 joins the delay set and is woken up again when thread 0 gives up. -/
def woken : List Event := delayed ++
  [.enter 1 (.watchAccess 0 4), .turn 1 true, .setPriority 1, .enter 0 (.watchAccess 0 4), .turn 0 true,
    .setPriority 0, .setPriority 0, .setPriority 0, .leave 0, .turn 0 true, .leave 0, .leave 1, .turn 1 true, .leave 1]

theorem delays_accounted_woken :
    ∃ s, Runs.Reach (· = start defaults) (State.Ordered defaults) (State.step defaults) s ∧
      (∀ t, s.phase t = .outside) ∧ s.priority 1 = 50 ∧ s.Sound defaults := by
  have reached : Runs.Reach (· = start defaults) (State.Ordered defaults) (State.step defaults) _ :=
    Runs.Reach.follow (.start rfl) (rfl : Runs.follow _ _ _ woken = some _)
  refine ⟨_, reached, fun t => ?_, rfl, delays_accounted reached⟩
  match t with
  | 0 => rfl
  | 1 => rfl
  | t + 2 => rfl

/-- Thread 1 sets itself low only when thread 0 has already woken it up. -/
def overtaken : List Event := delayed ++
  [.enter 1 (.watchAccess 0 4), .turn 1 true, .enter 0 (.watchAccess 0 4), .turn 0 true, .setPriority 0,
    .setPriority 0, .setPriority 0, .leave 0, .turn 0 true, .leave 0, .setPriority 1, .leave 1, .turn 1 true, .leave 1]

/-- The delayed thread calls `sched_yield` before its next access of the watched word. -/
def yielded : List Event := delayed ++ [.schedYield 0, .enter 0 (.watchAccess 0 4)]

theorem delays_lost :
    (∃ s, Runs.Reach (· = start defaults) (fun _ _ => True) (State.step defaults) s ∧
      (∀ t, s.phase t = .outside) ∧ s.priority 1 = defaults.lowerPriority ∧ ¬ s.status.Accounts 1) ∧
    ∃ s, Runs.Reach (· = start defaults) (fun _ _ => True) (State.step defaults) s ∧
      s.phase 0 = .ready (.watchAccess 0 4) ∧
      (Handler.watchAccess 0 4).turn defaults s.priority s.status 0 true = none := by
  constructor
  · have reached : Runs.Reach (· = start defaults) (fun _ _ => True) (State.step defaults) _ :=
      Runs.Reach.follow (.start rfl) (rfl : Runs.follow _ _ _ overtaken = some _)
    refine ⟨_, reached, fun t => ?_, by decide +kernel, by decide +kernel⟩
    match t with
    | 0 => rfl
    | 1 => rfl
    | t + 2 => rfl
  · have reached : Runs.Reach (· = start defaults) (fun _ _ => True) (State.step defaults) _ :=
      Runs.Reach.follow (.start rfl) (rfl : Runs.follow _ _ _ yielded = some _)
    exact ⟨_, reached, rfl, rfl⟩

end Maple.Idiom.Idiom1
