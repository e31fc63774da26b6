import Maple.Idiom.Idiom1Delays

/-! Threads of IDIOM_1 on one CPU: a thread of maximal priority runs. -/
namespace Maple.Idiom.Idiom1

/-- Where a thread is outside the handlers. -/
inductive Point where
  | elsewhere
  | event0 (addr size : Address)
  | after0
  | event1 (addr size : Address)
  | after1
  deriving DecidableEq

/-- An executed access of event `idx`. -/
structure Access where
  thread : ThreadId
  idx : Fin 2
  addr : Address
  size : Address
  deriving DecidableEq

structure Machine where
  sched : State
  point : ThreadId → Point := fun _ => .elsewhere
  blocked : ThreadId → Bool
  -- what happened: the accesses of the events, and whether `ActivelyExposed` was called
  accesses : List Access := []
  exposed : Bool := false

inductive Action where
  | reach0 (addr size : Address)
  | reach1 (addr size : Address)
  | watch (addr size : Address)
  | turn (choice : Bool)
  | setPriority
  | leave
  | access
  | after
  | schedYield
  | block

/-- `Idiom1CheckGiveup` sleeps when it refuses; no other turn restarts without calls. -/
def Turn.slept (r : Turn) : Bool := r.restart && r.calls.isEmpty

namespace Machine
variable (c : Config) (m : Machine) (t : ThreadId)

def enter (h : Handler) (point : Point) : Option Machine :=
  (m.sched.step c (.enter t h)).map fun sched => { m with sched, point := Function.update m.point t point }

def execute (idx : Fin 2) (addr size : Address) (point : Point) : Machine :=
  { m with accesses := m.accesses ++ [⟨t, idx, addr, size⟩], point := Function.update m.point t point }

def takeTurn (h : Handler) (r : Turn) : Machine :=
  { m with
    sched := m.sched.takeTurn t h r
    blocked := Function.update m.blocked t r.slept
    exposed := m.exposed || r.exposed }

/-- A handler is left for the access that it was called for. Event 1 may be a `pthread_mutex_lock`, which waits. -/
def act : Action → Option Machine
  | .reach0 addr size =>
    if m.point t = .elsewhere then m.enter c t (.beforeEvent0 addr size) (.event0 addr size) else none
  | .reach1 addr size =>
    if m.point t = .elsewhere then m.enter c t (.beforeEvent1 addr size) (.event1 addr size) else none
  | .watch addr size => if m.point t = .elsewhere then m.enter c t (.watchAccess addr size) .elsewhere else none
  | .turn choice =>
    match m.sched.phase t with
    | .ready h => (h.turn c m.sched.priority m.sched.status t choice).map (m.takeTurn t h)
    | _ => none
  | .setPriority => (m.sched.step c (.setPriority t)).map fun sched => { m with sched }
  | .leave => (m.sched.step c (.leave t)).map fun sched => { m with sched }
  | .access =>
    match m.sched.phase t, m.point t with
    | .outside, .event0 addr size => some (m.execute t 0 addr size .after0)
    | .outside, .event1 addr size => some (m.execute t 1 addr size .after1)
    | _, _ => none
  | .after =>
    match m.point t with
    | .after0 => m.enter c t .afterEvent0 .elsewhere
    | .after1 => m.enter c t .afterEvent1 .elsewhere
    | _ => none
  | .schedYield =>
    if m.point t = .elsewhere then (m.sched.step c (.schedYield t)).map fun sched => { m with sched } else none
  | .block =>
    match m.sched.phase t, m.point t with
    | .outside, .elsewhere | .outside, .event1 .. => some { m with blocked := Function.update m.blocked t true }
    | _, _ => none

/-- One of the runnable threads with the highest priority. -/
def Running (threads : List ThreadId) : Prop :=
  t ∈ threads ∧ m.blocked t = false ∧
    ∀ u ∈ threads, m.blocked u = false → m.sched.priority u ≤ m.sched.priority t

instance (threads : List ThreadId) : Decidable (m.Running t threads) := by
  unfold Running
  infer_instance

end Machine

inductive MachineEvent where
  | wake (t : ThreadId)
  | run (t : ThreadId) (action : Action)

/-- Threads that are not created yet are blocked. -/
def Machine.start (c : Config) (blocked : ThreadId → Bool) : Machine := { sched := Idiom1.start c, blocked }

def Machine.step (c : Config) (threads : List ThreadId) (m : Machine) : MachineEvent → Option Machine
  | .wake t => some { m with blocked := Function.update m.blocked t false }
  | .run t action => if m.Running t threads then m.act c t action else none

/-- Event 0 of one thread, and later event 1 of another one on an overlapping range. -/
def Genuine (accesses : List Access) : Prop :=
  ∃ a b : Access, [a, b].Sublist accesses ∧ a.idx = 0 ∧ b.idx = 1 ∧ a.thread ≠ b.thread ∧
    overlap b.addr b.size a.addr a.size = true

theorem Genuine.mono {accesses : List Access} (genuine : Genuine accesses) (access : Access) :
    Genuine (accesses ++ [access]) := by
  obtain ⟨first, second, inside, rest⟩ := genuine
  exact ⟨first, second, inside.trans (List.sublist_append_left _ _), rest⟩

def NoHigh (calls : List Call) : Prop := ∀ call ∈ calls, call.level ≠ .high

/-- The calls of a thread that may raise itself first, but lowers itself again behind that. -/
def Lowering (t : ThreadId) (calls : List Call) : Prop :=
  NoHigh calls ∨ ∃ rest, calls = setPriorityHigh t :: rest ∧ NoHigh rest ∧ ∃ call ∈ rest, call.target = t

theorem Lowering.high_own {t : ThreadId} {calls : List Call} (lowering : Lowering t calls) {call : Call}
    (member : call ∈ calls) (high : call.level = .high) : call.target = t := by
  obtain none | ⟨rest, rfl, none, _⟩ := lowering
  · exact absurd high (none call member)
  · obtain rfl | later := List.mem_cons.mp member
    · rfl
    · exact absurd high (none call later)

theorem Lowering.tail {t : ThreadId} {call : Call} {calls : List Call} (lowering : Lowering t (call :: calls)) :
    NoHigh calls ∧ (call.level = .high → ∃ call ∈ calls, call.target = t) := by
  obtain none | ⟨rest, same, none, own⟩ := lowering
  · exact ⟨fun other member => none other (List.mem_cons_of_mem _ member),
      fun high => absurd high (none call List.mem_cons_self)⟩
  · obtain ⟨rfl, rfl⟩ := List.cons.inj same
    exact ⟨none, fun _ => own⟩

/-- What a turn can do. -/
inductive Outcome (s : SchedStatus) (curr : ThreadId) : Handler → Turn → Prop
  | same {h restart} (waits : restart = true → s.state = .e1 ∨ s.state = .e0Watch)
      (spared0 : s.state = .e0 → ∀ addr size, h = .beforeEvent0 addr size → s.thdId0 ≠ some curr)
      (spared1 : s.state = .e1 → ∀ addr size, h = .beforeEvent1 addr size → s.thdId1 = some curr → restart = true) :
      Outcome s curr h { status := s, restart }
  | taken0 {addr size delaySet calls} (state : s.state ≠ .e0WatchX ∧ s.state ≠ .e0e1 ∧ s.state ≠ .done)
      (lowering : Lowering curr calls) (some : calls ≠ []) :
      Outcome s curr (.beforeEvent0 addr size)
        { status := { s.setEvent0 curr addr size with state := .e0, delaySet }, calls, restart := true }
  | taken1 {addr size delaySet calls} (state : s.state ≠ .e0WatchX ∧ s.state ≠ .e0e1 ∧ s.state ≠ .done)
      (lowering : Lowering curr calls) (some : calls ≠ []) :
      Outcome s curr (.beforeEvent1 addr size)
        { status := { s.setEvent1 curr addr size with state := .e1, delaySet }, calls, restart := true }
  | joined {h} (state : s.state = .e0Watch) :
      Outcome s curr h { status := s.delay curr, calls := [setPriorityLow curr], restart := true }
  | givenUp {h delaySet calls restart} (state : s.state = .e1 ∨ s.state = .e0Watch) (lowering : Lowering curr calls) :
      Outcome s curr h { status := { s with state := .init, delaySet }, calls, restart }
  | executing {addr size} (state : s.state = .e0) (own : s.thdId0 = some curr) :
      Outcome s curr (.beforeEvent0 addr size)
        { status := { s with state := .e0WatchX }, calls := [setPriorityHigh curr] }
  | watching (state : s.state = .e0WatchX) (own : s.thdId0 = some curr) :
      Outcome s curr .afterEvent0 { status := { s with state := .e0Watch }, calls := [setPriorityLow curr] }
  | force0 {addr size target} (state : s.state = .e0) (other : s.thdId0 = some target)
      (conflict : overlap addr size s.addr0 s.size0 = true) :
      Outcome s curr (.beforeEvent1 addr size)
        { status := { s.setEvent1 curr addr size with state := .e0e1 }, calls := [setPriorityHigh target] }
  | force1 {addr size target} (state : s.state = .e1) (other : s.thdId1 = some target)
      (conflict : overlap addr size s.addr1 s.size1 = true) :
      Outcome s curr (.beforeEvent0 addr size)
        { status := { s.setEvent0 curr addr size with state := .e0e1 }
          calls := [setPriorityHigh curr, setPriorityNormal target] }
  | meet {addr size target calls delaySet} (state : s.state = .e0Watch) (other : s.thdId0 = some target)
      (apart : curr ≠ target) (conflict : overlap addr size s.addr0 s.size0 = true) :
      Outcome s curr (.beforeEvent1 addr size)
        { status := { s.setEvent1 curr addr size with state := .e0e1, delaySet }, calls }
  | behind {calls} (state : s.state = .e0e1) (own : s.thdId0 = some curr) :
      Outcome s curr .afterEvent0 { status := s, calls }
  | exposed (state : s.state = .e0e1) (own : s.thdId1 = some curr) :
      Outcome s curr .afterEvent1 { status := { s with state := .done }, exposed := true }

section Outcomes
variable {c : Config} {priority : ThreadId → ℤ} {s : SchedStatus} {curr target : ThreadId} {addr size : Address}
  {choice : Bool} {r : Turn} {h : Handler}

theorem lowering_low : Lowering curr [setPriorityLow curr] := Or.inl (by simp [NoHigh])

theorem lowering_swap : Lowering curr [setPriorityHigh curr, setPriorityNormal target, setPriorityLow curr] :=
  Or.inr ⟨_, rfl, by simp [NoHigh], setPriorityLow curr, by simp, rfl⟩

theorem lowering_wake (copy : DelaySet) (calls : List Call) (noHigh : NoHigh calls)
    (own : ∃ call ∈ calls, call.target = curr) : Lowering curr (wakeDelaySet copy curr ++ calls) := by
  refine Or.inr ⟨_, rfl, fun call member => ?_, ?_⟩
  · rcases List.mem_append.mp member with woken | last
    · obtain ⟨t, _, rfl⟩ := List.mem_map.mp woken
      nofun
    · exact noHigh call last
  · obtain ⟨call, member, same⟩ := own
    exact ⟨call, List.mem_append_right _ member, same⟩

theorem beforeEvent0_outcome (turned : beforeEvent0 c priority s curr addr size choice = some r) :
    Outcome s curr (.beforeEvent0 addr size) r := by
  unfold beforeEvent0 at turned
  split at turned
  · next state =>
    cases turned
    exact .taken0 (by simp [state]) lowering_low (by simp)
  · next state =>
    obtain ⟨thd0, holder, turned⟩ := Option.bind_eq_some_iff.mp turned
    split at turned
    · next own =>
      obtain ⟨_, _, turned⟩ := Option.bind_eq_some_iff.mp turned
      cases turned
      exact .executing state (own ▸ holder)
    · next other =>
      have apart : s.thdId0 ≠ some curr := fun same => other (Option.some.inj (same.symm.trans holder))
      split at turned
      · cases turned
        have kept : s.setEvent0 curr addr size =
            { s.setEvent0 curr addr size with state := .e0, delaySet := s.delaySet } := by
          simp [SchedStatus.setEvent0, state]
        rw [kept]
        exact .taken0 (by simp [state]) lowering_swap (by simp)
      · cases turned
        exact .same (by simp) (fun _ _ _ _ => apart) fun other => by cases state.symm.trans other
  · next state =>
    obtain ⟨thd1, holder, turned⟩ := Option.bind_eq_some_iff.mp turned
    obtain ⟨_, _, turned⟩ := Option.bind_eq_some_iff.mp turned
    split at turned
    · next conflict =>
      cases turned
      exact .force1 state holder conflict
    · split at turned
      · cases turned
        exact .taken0 (by simp [state]) lowering_swap (by simp)
      · cases turned
        exact .same (by simp) (fun other => by cases state.symm.trans other) (by simp)
  · next state =>
    obtain ⟨thd0, holder, turned⟩ := Option.bind_eq_some_iff.mp turned
    have unchanged (restart : Bool) : Outcome s curr (.beforeEvent0 addr size) { status := s, restart } :=
      .same (fun _ => Or.inr state) (fun other => by cases state.symm.trans other)
        fun other => by cases state.symm.trans other
    have taken {calls : List Call} (lowering : Lowering curr calls) (some : calls ≠ []) :
        Outcome s curr (.beforeEvent0 addr size)
          { status := { s.setEvent0 curr addr size with state := .e0, delaySet := ∅ }, calls, restart := true } :=
      .taken0 (by simp [state]) lowering some
    have alone := lowering_wake s.delaySet [setPriorityLow curr] (by simp [NoHigh]) ⟨setPriorityLow curr, by simp, rfl⟩
    have swap := lowering_wake s.delaySet [setPriorityNormal thd0, setPriorityLow curr] (by simp [NoHigh])
      ⟨setPriorityLow curr, by simp, rfl⟩
    split at turned
    · obtain ⟨_, _, turned⟩ := Option.bind_eq_some_iff.mp turned
      split at turned
      · split at turned
        · cases turned
          exact taken alone (by simp)
        · cases turned
          exact unchanged true
      · split at turned
        · cases turned
          exact taken alone (by simp)
        · cases turned
          exact unchanged false
    · split at turned
      · split at turned
        · split at turned
          · cases turned
            exact taken swap (by simp)
          · cases turned
            exact unchanged true
        · cases turned
          exact .joined state
      · split at turned
        · cases turned
          exact taken swap (by simp)
        · cases turned
          exact unchanged false
  · next _ _ other0 other1 _ =>
    cases turned
    exact .same (by simp) (fun state => absurd state other0) fun state => absurd state other1

theorem beforeEvent1_outcome (turned : beforeEvent1 c priority s curr addr size choice = some r) :
    Outcome s curr (.beforeEvent1 addr size) r := by
  unfold beforeEvent1 at turned
  split at turned
  · next state =>
    cases turned
    exact .taken1 (by simp [state]) lowering_low (by simp)
  · next state =>
    obtain ⟨thd0, holder, turned⟩ := Option.bind_eq_some_iff.mp turned
    obtain ⟨_, _, turned⟩ := Option.bind_eq_some_iff.mp turned
    split at turned
    · next conflict =>
      cases turned
      exact .force0 state holder conflict
    · split at turned
      · cases turned
        exact .taken1 (by simp [state]) lowering_swap (by simp)
      · cases turned
        exact .same (by simp) (by simp) fun other => by cases state.symm.trans other
  · next state =>
    obtain ⟨thd1, holder, turned⟩ := Option.bind_eq_some_iff.mp turned
    split at turned
    · next own =>
      obtain ⟨_, _, turned⟩ := Option.bind_eq_some_iff.mp turned
      split at turned
      · cases turned
        exact .givenUp (Or.inl state) (Or.inl (by simp [NoHigh]))
      · cases turned
        exact .same (fun _ => Or.inl state) (by simp) fun _ _ _ _ _ => rfl
    · next other =>
      have apart : s.thdId1 ≠ some curr := fun same => other (Option.some.inj (same.symm.trans holder))
      split at turned
      · cases turned
        have kept : s.setEvent1 curr addr size =
            { s.setEvent1 curr addr size with state := .e1, delaySet := s.delaySet } := by
          simp [SchedStatus.setEvent1, state]
        rw [kept]
        exact .taken1 (by simp [state]) lowering_swap (by simp)
      · cases turned
        exact .same (by simp) (by simp) fun _ _ _ _ own => absurd own apart
  · next state =>
    obtain ⟨thd0, holder, turned⟩ := Option.bind_eq_some_iff.mp turned
    have unchanged (restart : Bool) : Outcome s curr (.beforeEvent1 addr size) { status := s, restart } :=
      .same (fun _ => Or.inr state) (fun other => by cases state.symm.trans other)
        fun other => by cases state.symm.trans other
    have taken {calls : List Call} (lowering : Lowering curr calls) (some : calls ≠ []) :
        Outcome s curr (.beforeEvent1 addr size)
          { status := { s.setEvent1 curr addr size with state := .e1, delaySet := ∅ }, calls, restart := true } :=
      .taken1 (by simp [state]) lowering some
    have alone := lowering_wake s.delaySet [setPriorityLow curr] (by simp [NoHigh]) ⟨setPriorityLow curr, by simp, rfl⟩
    have swap := lowering_wake s.delaySet [setPriorityNormal thd0, setPriorityLow curr] (by simp [NoHigh])
      ⟨setPriorityLow curr, by simp, rfl⟩
    split at turned
    · obtain ⟨_, _, turned⟩ := Option.bind_eq_some_iff.mp turned
      split at turned
      · split at turned
        · cases turned
          exact taken alone (by simp)
        · cases turned
          exact unchanged true
      · split at turned
        · cases turned
          exact taken alone (by simp)
        · cases turned
          exact unchanged false
    · next apart =>
      split at turned
      · next conflict =>
        cases turned
        exact .meet state holder apart conflict
      · split at turned
        · cases turned
          exact taken swap (by simp)
        · cases turned
          exact unchanged false
  · next _ _ other0 other1 _ =>
    cases turned
    exact .same (by simp) (by simp) fun state => absurd state other1

theorem afterEvent0_outcome : Outcome s curr .afterEvent0 (afterEvent0 s curr) := by
  have unchanged : Outcome s curr .afterEvent0 { status := s } := .same nofun nofun nofun
  unfold afterEvent0
  split
  · next state =>
    split
    · next own => exact .watching state own
    · exact unchanged
  · next state =>
    split
    · next own => exact .behind state own
    · exact unchanged
  · exact unchanged

theorem afterEvent1_outcome : Outcome s curr .afterEvent1 (afterEvent1 s curr) := by
  have unchanged : Outcome s curr .afterEvent1 { status := s } := .same nofun nofun nofun
  unfold afterEvent1
  split
  · next state =>
    split
    · next own => exact .exposed state own
    · exact unchanged
  · exact unchanged

theorem watchAccess_outcome (turned : watchAccess c priority s curr addr size choice = some r) :
    Outcome s curr (.watchAccess addr size) r := by
  unfold watchAccess at turned
  split at turned
  · next state =>
    have unchanged (restart : Bool) : Outcome s curr (.watchAccess addr size) { status := s, restart } :=
      .same (fun _ => Or.inr state) (by simp) (by simp)
    obtain ⟨thd0, holder, turned⟩ := Option.bind_eq_some_iff.mp turned
    have alone := lowering_wake s.delaySet [setPriorityNormal curr] (by simp [NoHigh])
      ⟨setPriorityNormal curr, by simp, rfl⟩
    have swap := lowering_wake s.delaySet [setPriorityNormal thd0, setPriorityNormal curr] (by simp [NoHigh])
      ⟨setPriorityNormal curr, by simp, rfl⟩
    split at turned
    · obtain ⟨_, _, turned⟩ := Option.bind_eq_some_iff.mp turned
      split at turned
      · split at turned
        · cases turned
          exact .givenUp (Or.inr state) alone
        · cases turned
          exact unchanged true
      · cases turned
        exact unchanged false
    · split at turned
      · split at turned
        · split at turned
          · cases turned
            exact .givenUp (Or.inr state) swap
          · cases turned
            exact unchanged true
        · cases turned
          exact .joined state
      · cases turned
        exact unchanged false
  · cases turned
    exact .same (by simp) (by simp) (by simp)

theorem turn_outcome (turned : h.turn c priority s curr choice = some r) : Outcome s curr h r := by
  cases h with
  | beforeEvent0 addr size => exact beforeEvent0_outcome turned
  | beforeEvent1 addr size => exact beforeEvent1_outcome turned
  | afterEvent0 =>
    cases turned
    exact afterEvent0_outcome
  | afterEvent1 =>
    cases turned
    exact afterEvent1_outcome
  | watchAccess addr size => exact watchAccess_outcome turned

end Outcomes

end Maple.Idiom.Idiom1
