import Maple.Idiom.Idiom1Machine

/-! Exposed iroots of IDIOM_1: the stages of a run up to `ActivelyExposed`. -/
namespace Maple.Idiom.Idiom1

def Handler.point : Handler → Point
  | .beforeEvent0 addr size => .event0 addr size
  | .beforeEvent1 addr size => .event1 addr size
  | _ => .elsewhere

def Phase.handler : Phase → Option Handler
  | .outside => none
  | .ready h | .calling h .. => some h

def Phase.nextCall : Phase → Option Call
  | .calling _ _ (call :: _) _ => some call
  | _ => none

namespace Machine

/-- `t` leaves the higher priority again by calls of its own. -/
structure Tame (c : Config) (m : Machine) (t : ThreadId) : Prop where
  calls : ∀ n calls, m.sched.Calls t n calls → Lowering t calls
  high : m.sched.priority t = c.higherPriority →
    ∃ n calls, m.sched.Calls t n calls ∧ ∃ call ∈ calls, call.target = t ∧ call.level ≠ .high

structure Wf (c : Config) (threads : List ThreadId) (m : Machine) : Prop where
  typed : ∀ t h, (m.sched.phase t).handler = some h → m.point t = h.point
  member : ∀ t, m.sched.phase t ≠ .outside ∨ m.point t ≠ .elsewhere → t ∈ threads
  awake : ∀ t n calls, m.sched.Calls t n calls → calls ≠ [] → m.blocked t = false
  le : ∀ t, m.sched.priority t ≤ c.higherPriority
  turn_le : ∀ t n calls, m.sched.Calls t n calls → n ≤ m.sched.turns

structure Quiet (c : Config) (m : Machine) : Prop where
  tame : ∀ t, m.Tame c t
  state : m.sched.status.state ≠ .e0WatchX ∧ m.sched.status.state ≠ .e0e1 ∧ m.sched.status.state ≠ .done
  e0 : m.sched.status.state = .e0 → ∃ a, m.sched.status.thdId0 = some a ∧ m.blocked a = false ∧
    (m.sched.phase a).Loops (.beforeEvent0 m.sched.status.addr0 m.sched.status.size0)
  e1 : m.sched.status.state = .e1 → ∃ b, m.sched.status.thdId1 = some b ∧
    (m.sched.phase b).Loops (.beforeEvent1 m.sched.status.addr1 m.sched.status.size1)
  e0Watch : m.sched.status.state = .e0Watch → ∃ a, m.sched.status.thdId0 = some a ∧
    ⟨a, 0, m.sched.status.addr0, m.sched.status.size0⟩ ∈ m.accesses

/-- `E0_WATCH_X`. -/
structure Executing (c : Config) (m : Machine) (a : ThreadId) : Prop where
  state : m.sched.status.state = .e0WatchX
  own : m.sched.status.thdId0 = some a
  tame : ∀ t, t ≠ a → m.Tame c t
  calls : ∀ n calls, m.sched.Calls a n calls → ∀ call ∈ calls, call.target = a
  event0 : m.point a = .event0 m.sched.status.addr0 m.sched.status.size0 ∨
    ⟨a, 0, m.sched.status.addr0, m.sched.status.size0⟩ ∈ m.accesses

/-- `E0_E1`. -/
structure Conflict (m : Machine) (a b : ThreadId) : Prop where
  state : m.sched.status.state = .e0e1
  thdId0 : m.sched.status.thdId0 = some a
  thdId1 : m.sched.status.thdId1 = some b
  apart : a ≠ b
  overlap : overlap m.sched.status.addr1 m.sched.status.size1 m.sched.status.addr0 m.sched.status.size0 = true

/-- Neither event of the conflict has been executed. -/
structure Unexecuted (m : Machine) (a b : ThreadId) : Prop extends Conflict m a b where
  event0 : m.point a = .event0 m.sched.status.addr0 m.sched.status.size0
  event1 : m.point b = .event1 m.sched.status.addr1 m.sched.status.size1
  awake : m.blocked a = false

/-- `b` has met the waiting `a` and is about to raise it. -/
structure Forcing0 (c : Config) (m : Machine) (a b : ThreadId) : Prop extends Unexecuted m a b where
  tame : ∀ t, t ≠ b → m.Tame c t
  calls : ∃ n, m.sched.Calls b n [setPriorityHigh a] ∧ ∀ n' calls, m.sched.Calls a n' calls → n' < n ∨ calls = []
  below : m.sched.priority b ≠ c.higherPriority

/-- `a` has met the waiting `b` and is about to raise itself. -/
structure Forcing1 (c : Config) (m : Machine) (a b : ThreadId) : Prop extends Unexecuted m a b where
  tame : ∀ t, t ≠ a → m.Tame c t
  calls : ∃ n, m.sched.Calls a n [setPriorityHigh a, setPriorityNormal b]
  below : m.sched.priority a ≠ c.higherPriority
  loops : (m.sched.phase b).Loops (.beforeEvent1 m.sched.status.addr1 m.sched.status.size1)

/-- Only `a` can run. -/
structure Forced (c : Config) (threads : List ThreadId) (m : Machine) (a b : ThreadId) : Prop
    extends Unexecuted m a b where
  high : m.sched.priority a = c.higherPriority
  others : ∀ t, t ≠ a → m.sched.priority t ≠ c.higherPriority
  member : a ∈ threads
  calls : ∀ n calls, m.sched.Calls a n calls →
    (n < m.sched.settled a ∨ ∀ call ∈ calls, call.target ≠ a) ∧ ∀ call ∈ calls, call.level = .high → call.target = a

structure Executed (m : Machine) (a b : ThreadId) : Prop extends Conflict m a b where
  event0 : ⟨a, 0, m.sched.status.addr0, m.sched.status.size0⟩ ∈ m.accesses
  event1 : m.point b = .event1 m.sched.status.addr1 m.sched.status.size1 ∨ Genuine m.accesses

inductive Stage (c : Config) (threads : List ThreadId) (m : Machine) : Prop
  | quiet (quiet : m.Quiet c)
  | executing (a : ThreadId) (executing : m.Executing c a)
  | forcing0 (a b : ThreadId) (forcing : m.Forcing0 c a b)
  | forcing1 (a b : ThreadId) (forcing : m.Forcing1 c a b)
  | forced (a b : ThreadId) (forced : m.Forced c threads a b)
  | executed (a b : ThreadId) (executed : m.Executed a b)
  | done (state : m.sched.status.state = .done)

/-- What the actions leave as it is that take no turn, set no priority and execute no event. -/
structure Frame (c : Config) (m m' : Machine) : Prop where
  status : m'.sched.status = m.sched.status
  settled : m'.sched.settled = m.sched.settled
  accesses : m'.accesses = m.accesses
  left : ∀ t n calls, m'.sched.Calls t n calls → m.sched.Calls t n calls
  kept : ∀ t n calls, m.sched.Calls t n calls → calls ≠ [] → m'.sched.Calls t n calls
  loops : ∀ t h, (m.sched.phase t).Loops h → (m'.sched.phase t).Loops h
  point0 : ∀ t addr size, m.point t = .event0 addr size → m'.point t = .event0 addr size
  point1 : ∀ t addr size, m.point t = .event1 addr size → m'.point t = .event1 addr size
  awake : ∀ t addr size, m.point t = .event0 addr size → m.blocked t = false → m'.blocked t = false
  priority : ∀ t, m'.sched.priority t = m.sched.priority t ∨
    m'.sched.priority t ≠ c.higherPriority ∧ ∀ addr size, m.point t ≠ .event0 addr size

section Frame
variable {c : Config} {threads : List ThreadId} {m m' : Machine} {a b t : ThreadId}

theorem Frame.high (frame : Frame c m m') (high : m'.sched.priority t = c.higherPriority) :
    m.sched.priority t = c.higherPriority := by
  obtain same | ⟨other, _⟩ := frame.priority t
  · exact same.symm.trans high
  · exact absurd high other

theorem Frame.tame (frame : Frame c m m') (tame : m.Tame c t) : m'.Tame c t where
  calls n calls calling := tame.calls n calls (frame.left t n calls calling)
  high high := by
    obtain ⟨n, calls, calling, call, member, own⟩ := tame.high (frame.high high)
    exact ⟨n, calls, frame.kept t n calls calling (List.ne_nil_of_mem member), call, member, own⟩

theorem Wf.loops0 (wf : m.Wf c threads) {addr size : Address} (loops : (m.sched.phase t).Loops (.beforeEvent0 addr size)) :
    m.point t = .event0 addr size := by
  refine wf.typed t _ (?_ : _ = some (Handler.beforeEvent0 addr size))
  obtain ready | ⟨n, calls, calling⟩ := loops
  · rw [ready]
    rfl
  · rw [calling]
    rfl

theorem Wf.loops1 (wf : m.Wf c threads) {addr size : Address} (loops : (m.sched.phase t).Loops (.beforeEvent1 addr size)) :
    m.point t = .event1 addr size := by
  refine wf.typed t _ (?_ : _ = some (Handler.beforeEvent1 addr size))
  obtain ready | ⟨n, calls, calling⟩ := loops
  · rw [ready]
    rfl
  · rw [calling]
    rfl

theorem Frame.conflict (frame : Frame c m m') (conflict : m.Conflict a b) : m'.Conflict a b := by
  obtain ⟨state, thdId0, thdId1, apart, overlap⟩ := conflict
  constructor <;> first | assumption | rwa [frame.status]

theorem Frame.unexecuted (frame : Frame c m m') (before : m.Unexecuted a b) : m'.Unexecuted a b where
  toConflict := frame.conflict before.toConflict
  event0 := by rw [frame.status]; exact frame.point0 a _ _ before.event0
  event1 := by rw [frame.status]; exact frame.point1 b _ _ before.event1
  awake := frame.awake a _ _ before.event0 before.awake

theorem Frame.priority0 (frame : Frame c m m') (before : m.Unexecuted a b) :
    m'.sched.priority a = m.sched.priority a :=
  (frame.priority a).resolve_right fun other => other.2 _ _ before.event0

theorem Stage.frame (wf : m.Wf c threads) (stage : m.Stage c threads) (frame : Frame c m m') : m'.Stage c threads := by
  cases stage with
  | quiet quiet =>
    refine .quiet ⟨fun t => frame.tame (quiet.tame t), by rw [frame.status]; exact quiet.state, ?_, ?_, ?_⟩
    · rw [frame.status]
      intro state
      obtain ⟨a, own, awake, loops⟩ := quiet.e0 state
      exact ⟨a, own, frame.awake a _ _ (wf.loops0 loops) awake, frame.loops a _ loops⟩
    · rw [frame.status]
      intro state
      obtain ⟨b, own, loops⟩ := quiet.e1 state
      exact ⟨b, own, frame.loops b _ loops⟩
    · rw [frame.status, frame.accesses]
      exact quiet.e0Watch
  | executing a executing =>
    refine .executing a ⟨?_, ?_, fun t other => frame.tame (executing.tame t other), ?_, ?_⟩
    · rw [frame.status]
      exact executing.state
    · rw [frame.status]
      exact executing.own
    · exact fun n calls calling => executing.calls n calls (frame.left a n calls calling)
    · rw [frame.status, frame.accesses]
      exact executing.event0.imp (frame.point0 a _ _) id
  | forcing0 a b forcing =>
    obtain ⟨n, calling, earlier⟩ := forcing.calls
    exact .forcing0 a b {
      toUnexecuted := frame.unexecuted forcing.toUnexecuted
      tame := fun t other => frame.tame (forcing.tame t other)
      calls := ⟨n, frame.kept b n _ calling (by simp), fun n' calls called => earlier n' calls (frame.left a n' calls called)⟩
      below := fun high => forcing.below (frame.high high) }
  | forcing1 a b forcing =>
    obtain ⟨n, calling⟩ := forcing.calls
    exact .forcing1 a b {
      toUnexecuted := frame.unexecuted forcing.toUnexecuted
      tame := fun t other => frame.tame (forcing.tame t other)
      calls := ⟨n, frame.kept a n _ calling (by simp)⟩
      below := fun high => forcing.below (frame.high high)
      loops := by rw [frame.status]; exact frame.loops b _ forcing.loops }
  | forced a b forced =>
    exact .forced a b {
      toUnexecuted := frame.unexecuted forced.toUnexecuted
      high := (frame.priority0 forced.toUnexecuted).trans forced.high
      others := fun t other high => forced.others t other (frame.high high)
      member := forced.member
      calls := fun n calls calling => by
        rw [frame.settled]
        exact forced.calls n calls (frame.left a n calls calling) }
  | executed a b executed =>
    refine .executed a b ⟨frame.conflict executed.toConflict, ?_, ?_⟩
    · rw [frame.status, frame.accesses]
      exact executed.event0
    · rw [frame.status, frame.accesses]
      exact executed.event1.imp (frame.point1 b _ _) id
  | done state => exact .done (by rw [frame.status]; exact state)

end Frame

section Actions
variable {c : Config} {threads : List ThreadId} {m m' : Machine} {t : ThreadId}

/-- A thread without calls left enters or leaves a handler, or begins another turn. -/
theorem Frame.move {phase : Phase} (idle : ∀ n calls, m.sched.Calls t n calls → calls = [])
    (silent : ∀ h n calls restart, phase ≠ .calling h n calls restart)
    (loops : ∀ h, (m.sched.phase t).Loops h → phase.Loops h) (point : ThreadId → Point)
    (point0 : ∀ u addr size, m.point u = .event0 addr size → point u = .event0 addr size)
    (point1 : ∀ u addr size, m.point u = .event1 addr size → point u = .event1 addr size) :
    Frame c m { m with sched := m.sched.setPhase t phase, point } where
  status := rfl
  settled := rfl
  accesses := rfl
  left u n calls calling := by
    rw [setPhase_calls] at calling
    split at calling
    · obtain ⟨h, restart, called⟩ := calling
      exact absurd called (silent h n calls restart)
    · exact calling
  kept u n calls calling some := by
    rw [setPhase_calls, if_neg]
    · exact calling
    · rintro rfl
      exact some (idle n calls calling)
  loops u h looping := by
    simp only [State.setPhase, Function.update_apply]
    split
    · next own => exact loops h (own ▸ looping)
    · exact looping
  point0 := point0
  point1 := point1
  awake _ _ _ _ := id
  priority _ := Or.inl rfl

theorem Wf.move (wf : m.Wf c threads) {phase : Phase} (point : ThreadId → Point)
    (silent : ∀ h n calls restart, phase ≠ .calling h n calls restart)
    (typed : ∀ h, phase.handler = some h → point t = h.point) (others : ∀ u, u ≠ t → point u = m.point u)
    (member : t ∈ threads) : ({ m with sched := m.sched.setPhase t phase, point } : Machine).Wf c threads where
  typed u h handler := by
    simp only [State.setPhase, Function.update_apply] at handler
    split at handler
    · next own => exact own ▸ typed h handler
    · next other => exact (others u other).trans (wf.typed u h handler)
  member u inside := by
    by_cases own : u = t
    · exact own ▸ member
    · refine wf.member u (inside.imp ?_ ?_)
      · simp [State.setPhase, Function.update_of_ne own]
      · exact fun elsewhere => others u own ▸ elsewhere
  awake u n calls calling some := by
    rw [setPhase_calls] at calling
    split at calling
    · obtain ⟨h, restart, called⟩ := calling
      exact absurd called (silent h n calls restart)
    · exact wf.awake u n calls calling some
  le := wf.le
  turn_le u n calls calling := by
    rw [setPhase_calls] at calling
    split at calling
    · obtain ⟨h, restart, called⟩ := calling
      exact absurd called (silent h n calls restart)
    · exact wf.turn_le u n calls calling

theorem enter_eq {h : Handler} {point : Point} (entered : m.enter c t h point = some m') :
    m.sched.phase t = .outside ∧
      m' = { m with sched := m.sched.setPhase t (.ready h), point := Function.update m.point t point } := by
  obtain ⟨sched, stepped, rfl⟩ := Option.map_eq_some_iff.mp entered
  simp only [State.step] at stepped
  split at stepped
  · next outside =>
    cases stepped
    exact ⟨outside, rfl⟩
  · cases stepped

/-- What every step preserves. -/
structure Inv (c : Config) (threads : List ThreadId) (m : Machine) : Prop where
  wf : m.Wf c threads
  stage : m.Stage c threads
  genuine : m.exposed = true → Genuine m.accesses

theorem Inv.enter (inv : m.Inv c threads) (member : t ∈ threads) {h : Handler} {point : Point}
    (free : ∀ addr size, m.point t ≠ .event0 addr size ∧ m.point t ≠ .event1 addr size) (fits : point = h.point)
    (entered : m.enter c t h point = some m') : m'.Inv c threads := by
  obtain ⟨outside, rfl⟩ := enter_eq entered
  have noLoop (h' : Handler) : ¬ (m.sched.phase t).Loops h' := by
    rw [outside]
    rintro (ready | ⟨_, _, called⟩)
    · exact nomatch ready
    · exact nomatch called
  refine ⟨?_, ?_, inv.genuine⟩
  · refine inv.wf.move _ (by simp) (fun h' handler => ?_) (fun u other => Function.update_of_ne other _ _) member
    cases handler
    rw [Function.update_self, fits]
  · refine inv.stage.frame inv.wf (.move (fun n calls ⟨_, _, called⟩ => nomatch outside.symm.trans called) (by simp)
      (fun h' looping => absurd looping (noLoop h')) _ (fun u addr size here => ?_) fun u addr size here => ?_)
    · rw [Function.update_of_ne, here]
      rintro rfl
      exact (free addr size).1 here
    · rw [Function.update_of_ne, here]
      rintro rfl
      exact (free addr size).2 here

theorem Inv.leave (inv : m.Inv c threads) (member : t ∈ threads) {sched : State}
    (stepped : m.sched.step c (.leave t) = some sched) : ({ m with sched } : Machine).Inv c threads := by
  simp only [State.step] at stepped
  split at stepped
  · next h n restart calling =>
    cases stepped
    have silent (h' : Handler) (n' : ℕ) (calls : List Call) (restart' : Bool) :
        (if restart then Phase.ready h else .outside) ≠ .calling h' n' calls restart' := by
      cases restart <;> simp
    refine ⟨inv.wf.move m.point silent (fun h' handler => ?_) (fun _ _ => rfl) member,
      inv.stage.frame inv.wf (.move (fun n' calls called => ?_) silent (fun h' looping => ?_) m.point (fun _ _ _ => id)
        fun _ _ _ => id), inv.genuine⟩
    · refine inv.wf.typed t h' ?_
      cases restart with
      | false => cases handler
      | true =>
        rw [calling]
        exact handler
    · obtain ⟨_, _, called⟩ := called
      cases calling.symm.trans called
      rfl
    · obtain ready | ⟨_, _, called⟩ := looping
      · cases calling.symm.trans ready
      · cases calling.symm.trans called
        exact Or.inl rfl
  · cases stepped

theorem Inv.setBlocked (inv : m.Inv c threads) (blocked : Bool)
    (idle : blocked = true → m.sched.phase t = .outside ∧ ∀ addr size, m.point t ≠ .event0 addr size) :
    ({ m with blocked := Function.update m.blocked t blocked } : Machine).Inv c threads where
  wf := {
    typed := inv.wf.typed
    member := inv.wf.member
    awake := fun u n calls calling some => by
      simp only [Function.update_apply]
      split
      · next own =>
        cases blocked with
        | false => rfl
        | true =>
          obtain ⟨_, _, called⟩ := calling
          exact nomatch (own ▸ (idle rfl).1).symm.trans called
      · exact inv.wf.awake u n calls calling some
    le := inv.wf.le
    turn_le := inv.wf.turn_le }
  stage := by
    refine inv.stage.frame inv.wf ⟨rfl, rfl, rfl, fun _ _ _ => id, fun _ _ _ calling _ => calling, fun _ _ => id,
      fun _ _ _ => id, fun _ _ _ => id, fun u addr size here awake => ?_, fun _ => Or.inl rfl⟩
    simp only [Function.update_apply]
    split
    · next own =>
      cases blocked with
      | false => rfl
      | true => exact absurd (own ▸ here) ((idle rfl).2 addr size)
    · exact awake
  genuine := inv.genuine

theorem Forced.only {a b : ThreadId} (forced : m.Forced c threads a b) (wf : m.Wf c threads)
    (running : m.Running t threads) : t = a := by
  by_contra other
  have above := running.2.2 a forced.member forced.awake
  exact forced.others t other (Int.le_antisymm (wf.le t) (forced.high ▸ above))

/-- The access of an event. -/
theorem Inv.execute (inv : m.Inv c threads) (running : m.Running t threads) (outside : m.sched.phase t = .outside)
    {idx : Fin 2} {addr size : Address} {point : Point}
    (reached : idx = 0 ∧ m.point t = .event0 addr size ∨ idx = 1 ∧ m.point t = .event1 addr size) :
    (m.execute t idx addr size point).Inv c threads := by
  have noCalls (n : ℕ) (calls : List Call) : ¬ m.sched.Calls t n calls := fun ⟨_, _, called⟩ =>
    nomatch outside.symm.trans called
  have noLoop (h : Handler) : ¬ (m.sched.phase t).Loops h := by
    rw [outside]
    rintro (ready | ⟨_, _, called⟩)
    · exact nomatch ready
    · exact nomatch called
  have spared {u : ThreadId} (other : u ≠ t) : (m.execute t idx addr size point).point u = m.point u :=
    Function.update_of_ne other _ _
  have tame (u : ThreadId) (tame : m.Tame c u) : (m.execute t idx addr size point).Tame c u := ⟨tame.calls, tame.high⟩
  -- a thread whose event 0 was awaited
  have executed (b : ThreadId) (before : m.Unexecuted t b) : (m.execute t idx addr size point).Stage c threads := by
    obtain ⟨rfl, here⟩ | ⟨_, here⟩ := reached
    · cases before.event0.symm.trans here
      refine .executed t b ⟨⟨before.state, before.thdId0, before.thdId1, before.apart, before.overlap⟩,
        List.mem_append_right _ (List.mem_singleton.mpr rfl), Or.inl ?_⟩
      rw [spared before.apart.symm]
      exact before.event1
    · exact nomatch before.event0.symm.trans here
  have unexecuted {a b : ThreadId} (before : m.Unexecuted a b) (apart0 : a ≠ t) (apart1 : b ≠ t) :
      (m.execute t idx addr size point).Unexecuted a b :=
    ⟨⟨before.state, before.thdId0, before.thdId1, before.apart, before.overlap⟩, (spared apart0).trans before.event0,
      (spared apart1).trans before.event1, before.awake⟩
  refine ⟨⟨fun u h handler => ?_, fun u inside => ?_, inv.wf.awake, inv.wf.le, inv.wf.turn_le⟩, ?_,
    fun exposed => (inv.genuine exposed).mono _⟩
  · by_cases own : u = t
    · rw [own] at handler
      rw [Machine.execute, outside] at handler
      exact nomatch handler
    · exact (spared own).trans (inv.wf.typed u h handler)
  · by_cases own : u = t
    · exact own ▸ running.1
    · exact inv.wf.member u (by rwa [spared own] at inside)
  · cases inv.stage with
    | quiet quiet =>
      refine .quiet ⟨fun u => tame u (quiet.tame u), quiet.state, quiet.e0, quiet.e1, fun state => ?_⟩
      exact (quiet.e0Watch state).imp fun _ held => held.imp id (List.mem_append_left _)
    | executing a executing =>
      refine .executing a ⟨executing.state, executing.own, fun u other => tame u (executing.tame u other), executing.calls,
        ?_⟩
      obtain waiting | before := executing.event0
      · by_cases own : a = t
        · subst own
          obtain ⟨rfl, here⟩ | ⟨_, here⟩ := reached
          · cases waiting.symm.trans here
            exact Or.inr (List.mem_append_right _ (List.mem_singleton.mpr rfl))
          · exact nomatch waiting.symm.trans here
        · exact Or.inl ((spared own).trans waiting)
      · exact Or.inr (List.mem_append_left _ before)
    | forcing0 a b forcing =>
      obtain ⟨n, calling, earlier⟩ := forcing.calls
      by_cases own : a = t
      · subst own
        exact executed b forcing.toUnexecuted
      · have apart : b ≠ t := fun same => noCalls n _ (same ▸ calling)
        exact .forcing0 a b {
          toUnexecuted := unexecuted forcing.toUnexecuted own apart
          tame := fun u other => tame u (forcing.tame u other)
          calls := ⟨n, calling, earlier⟩
          below := forcing.below }
    | forcing1 a b forcing =>
      obtain ⟨n, calling⟩ := forcing.calls
      have apart0 : a ≠ t := fun same => noCalls n _ (same ▸ calling)
      have apart1 : b ≠ t := fun same => noLoop _ (same ▸ forcing.loops)
      exact .forcing1 a b {
        toUnexecuted := unexecuted forcing.toUnexecuted apart0 apart1
        tame := fun u other => tame u (forcing.tame u other)
        calls := ⟨n, calling⟩
        below := forcing.below
        loops := forcing.loops }
    | forced a b forced =>
      obtain rfl := forced.only inv.wf running
      exact executed b forced.toUnexecuted
    | executed a b before =>
      refine .executed a b ⟨⟨before.state, before.thdId0, before.thdId1, before.apart, before.overlap⟩,
        List.mem_append_left _ before.event0, ?_⟩
      obtain waiting | genuine := before.event1
      · by_cases own : b = t
        · subst own
          obtain ⟨_, here⟩ | ⟨rfl, here⟩ := reached
          · exact nomatch waiting.symm.trans here
          · cases waiting.symm.trans here
            refine Or.inr ⟨⟨a, 0, m.sched.status.addr0, m.sched.status.size0⟩,
              ⟨b, 1, m.sched.status.addr1, m.sched.status.size1⟩, ?_, rfl, rfl, before.apart, before.overlap⟩
            exact (List.singleton_sublist.mpr before.event0).append (List.Sublist.refl [_])
        · exact Or.inl ((spared own).trans waiting)
      · exact Or.inr (genuine.mono _)
    | done state => exact .done state

theorem Inv.schedYield (inv : m.Inv c threads) (strict : c.strict = true) (elsewhere : m.point t = .elsewhere) :
    ({ m with sched := { m.sched with
      priority := Function.update m.sched.priority t (c.priorityOf t .min) } } : Machine).Inv c threads where
  wf := {
    typed := inv.wf.typed
    member := inv.wf.member
    awake := inv.wf.awake
    le := fun u => by
      simp only [Function.update_apply]
      split
      · exact Config.priorityOf_le strict t .min
      · exact inv.wf.le u
    turn_le := inv.wf.turn_le }
  stage := by
    refine inv.stage.frame inv.wf ⟨rfl, rfl, rfl, fun _ _ _ => id, fun _ _ _ calling _ => calling, fun _ _ => id,
      fun _ _ _ => id, fun _ _ _ => id, fun _ _ _ _ => id, fun u => ?_⟩
    simp only [Function.update_apply]
    split
    · next own =>
      refine Or.inr ⟨fun high => ?_, fun addr size here => nomatch (own ▸ elsewhere).symm.trans here⟩
      exact nomatch (Config.priorityOf_eq_higher strict).mp high
    · exact Or.inl rfl
  genuine := inv.genuine

section SetPriority
variable {h : Handler} {n : ℕ} {call : Call} {calls : List Call} {restart : Bool}

theorem Tame.execute_other (strict : c.strict = true) {u : ThreadId} (other : u ≠ t) (tame : m.Tame c u)
    (high : call.level = .high → call.target ≠ u) :
    ({ m with sched := m.sched.execute c t h n call calls restart } : Machine).Tame c u where
  calls n' list calling := by
    obtain ⟨own, _⟩ | ⟨_, before⟩ := (execute_calls _ _ _ _ _ _ _ _).mp calling
    · exact absurd own other
    · exact tame.calls n' list before
  high raised := by
    have before : m.sched.priority u = c.higherPriority := by
      simp only [State.execute, State.setPhase, Function.update_apply] at raised
      split at raised
      · next own => exact absurd own.symm (high ((Config.priorityOf_eq_higher strict).mp raised))
      · exact raised
    obtain ⟨n', list, calling, last⟩ := tame.high before
    exact ⟨n', list, (execute_calls _ _ _ _ _ _ _ _).mpr (Or.inr ⟨other, calling⟩), last⟩

theorem Tame.execute_self (strict : c.strict = true) (calling : m.sched.phase t = .calling h n (call :: calls) restart)
    (tame : m.Tame c t) : ({ m with sched := m.sched.execute c t h n call calls restart } : Machine).Tame c t := by
  have here : m.sched.Calls t n (call :: calls) := ⟨h, restart, calling⟩
  obtain ⟨none, lowers⟩ := (tame.calls n _ here).tail
  have left : (m.sched.execute c t h n call calls restart).Calls t n calls :=
    (execute_calls _ _ _ _ _ _ _ _).mpr (Or.inl ⟨rfl, rfl, rfl⟩)
  refine ⟨fun n' list later => ?_, fun raised => ?_⟩
  · obtain ⟨_, _, rfl⟩ | ⟨other, _⟩ := (execute_calls _ _ _ _ _ _ _ _).mp later
    · exact Or.inl none
    · exact absurd rfl other
  · simp only [State.execute, State.setPhase, Function.update_apply] at raised
    split at raised
    · obtain ⟨last, member, own⟩ := lowers ((Config.priorityOf_eq_higher strict).mp raised)
      exact ⟨n, calls, left, last, member, own, none last member⟩
    · next other =>
      obtain ⟨n', list, before, last, member, own, low⟩ := tame.high raised
      obtain ⟨_, _, same⟩ := before
      obtain ⟨_, rfl, rfl, _⟩ := Phase.calling.inj (calling.symm.trans same)
      obtain rfl | later := List.mem_cons.mp member
      · exact absurd own.symm other
      · exact ⟨n, calls, left, last, later, own, low⟩

theorem Tame.execute (strict : c.strict = true) (calling : m.sched.phase t = .calling h n (call :: calls) restart)
    {u : ThreadId} (tame : m.Tame c u) (high : call.level = .high → call.target = t) :
    ({ m with sched := m.sched.execute c t h n call calls restart } : Machine).Tame c u := by
  by_cases own : u = t
  · subst own
    exact tame.execute_self strict calling
  · exact tame.execute_other strict own fun raised same => own (same.symm.trans (high raised))

theorem Wf.execute (wf : m.Wf c threads) (strict : c.strict = true)
    (calling : m.sched.phase t = .calling h n (call :: calls) restart) :
    ({ m with sched := m.sched.execute c t h n call calls restart } : Machine).Wf c threads where
  typed u h' handler := by
    simp only [State.execute, State.setPhase, Function.update_apply] at handler
    split at handler
    · next own =>
      refine own ▸ wf.typed t h' ?_
      rw [calling]
      exact handler
    · exact wf.typed u h' handler
  member u inside := by
    by_cases own : u = t
    · exact own ▸ wf.member t (Or.inl (by simp [calling]))
    · refine wf.member u (inside.imp ?_ id)
      simp [State.execute, State.setPhase, Function.update_of_ne own]
  awake u n' list later some := by
    obtain ⟨rfl, rfl, rfl⟩ | ⟨_, before⟩ := (execute_calls _ _ _ _ _ _ _ _).mp later
    · exact wf.awake u n' _ ⟨h, restart, calling⟩ (by simp)
    · exact wf.awake u n' list before some
  le u := by
    simp only [State.execute, State.setPhase, Function.update_apply]
    split
    · next own => exact own ▸ Config.priorityOf_le strict _ _
    · exact wf.le u
  turn_le u n' list later := by
    obtain ⟨rfl, rfl, rfl⟩ | ⟨_, before⟩ := (execute_calls _ _ _ _ _ _ _ _).mp later
    · exact wf.turn_le u n' _ ⟨h, restart, calling⟩
    · exact wf.turn_le u n' list before

/-- Behind the call that raises it, only `a` can run. -/
theorem Unexecuted.forced {a b : ThreadId} (before : m.Unexecuted a b) (wf : m.Wf c threads)
    (running : m.Running t threads) (below : m.sched.priority t ≠ c.higherPriority)
    (tame : ∀ u, u ≠ t → m.Tame c u)
    (left : ∀ n' list, (m.sched.execute c t h n (setPriorityHigh a) calls restart).Calls a n' list →
      (n' < n ∨ ∀ call ∈ list, call.target ≠ a) ∧ ∀ call ∈ list, call.level = .high → call.target = a) :
    ({ m with sched := m.sched.execute c t h n (setPriorityHigh a) calls restart } : Machine).Forced c threads a b where
  toUnexecuted := ⟨⟨before.state, before.thdId0, before.thdId1, before.apart, before.overlap⟩, before.event0,
    before.event1, before.awake⟩
  high := by simp [State.execute, State.setPhase, Config.priorityOf]
  others u other raised := by
    simp only [State.execute, State.setPhase, Function.update_of_ne other] at raised
    -- a thread at the higher priority would have calls left and run instead of `t`
    by_cases own : u = t
    · exact below (own ▸ raised)
    · obtain ⟨n', list, called, last, inside, _⟩ := (tame u own).high raised
      have awake := wf.awake u n' list called (List.ne_nil_of_mem inside)
      obtain ⟨_, _, phase⟩ := called
      have above := running.2.2 u (wf.member u (Or.inl (by simp [phase]))) awake
      exact below (Int.le_antisymm (wf.le t) (raised ▸ above))
  member := wf.member a (Or.inr (by simp [before.event0]))
  calls n' list called := by
    obtain ⟨early, own⟩ := left n' list called
    refine ⟨early.imp (fun less => ?_) id, own⟩
    simp only [State.execute, State.setPhase, Function.update_self]
    exact Nat.lt_of_lt_of_le less (Nat.le_max_right _ _)

theorem Tame.target_of_high (tame : m.Tame c t) (calling : m.sched.phase t = .calling h n (call :: calls) restart)
    (high : call.level = .high) : call.target = t :=
  (tame.calls n _ ⟨h, restart, calling⟩).high_own List.mem_cons_self high

theorem execute_below (strict : c.strict = true) {u : ThreadId} (below : m.sched.priority u ≠ c.higherPriority)
    (high : call.level = .high → call.target ≠ u) :
    (m.sched.execute c t h n call calls restart).priority u ≠ c.higherPriority := by
  simp only [State.execute, State.setPhase, Function.update_apply]
  split
  · next own => exact fun raised => high ((Config.priorityOf_eq_higher strict).mp raised) own.symm
  · exact below

theorem Unexecuted.execute {a b : ThreadId} (before : m.Unexecuted a b) :
    ({ m with sched := m.sched.execute c t h n call calls restart } : Machine).Unexecuted a b :=
  ⟨⟨before.state, before.thdId0, before.thdId1, before.apart, before.overlap⟩, before.event0, before.event1, before.awake⟩

theorem Quiet.execute (quiet : m.Quiet c) (strict : c.strict = true)
    (calling : m.sched.phase t = .calling h n (call :: calls) restart) :
    ({ m with sched := m.sched.execute c t h n call calls restart } : Machine).Quiet c where
  tame u := (quiet.tame u).execute strict calling ((quiet.tame t).target_of_high calling)
  state := quiet.state
  e0 state := by
    obtain ⟨a, own, awake, loops⟩ := quiet.e0 state
    exact ⟨a, own, awake, execute_loops calling a _ loops⟩
  e1 state := by
    obtain ⟨b, own, loops⟩ := quiet.e1 state
    exact ⟨b, own, execute_loops calling b _ loops⟩
  e0Watch := quiet.e0Watch

theorem Executing.execute {a : ThreadId} (executing : m.Executing c a) (strict : c.strict = true)
    (calling : m.sched.phase t = .calling h n (call :: calls) restart) :
    ({ m with sched := m.sched.execute c t h n call calls restart } : Machine).Executing c a where
  state := executing.state
  own := executing.own
  tame u other := by
    refine (executing.tame u other).execute strict calling fun high => ?_
    by_cases own : t = a
    · subst own
      exact executing.calls n _ ⟨h, restart, calling⟩ call List.mem_cons_self
    · exact (executing.tame t own).target_of_high calling high
  calls n' list later := by
    obtain ⟨rfl, _, rfl⟩ | ⟨_, before⟩ := (execute_calls _ _ _ _ _ _ _ _).mp later
    · exact fun other member => executing.calls n _ ⟨h, restart, calling⟩ other (List.mem_cons_of_mem _ member)
    · exact executing.calls n' list before
  event0 := executing.event0

/-- The call of `b` raises `a`; a call of another thread changes nothing. -/
theorem Forcing0.execute {a b : ThreadId} (forcing : m.Forcing0 c a b) (strict : c.strict = true) (wf : m.Wf c threads)
    (running : m.Running t threads) (calling : m.sched.phase t = .calling h n (call :: calls) restart) :
    ({ m with sched := m.sched.execute c t h n call calls restart } : Machine).Stage c threads := by
  obtain ⟨n₀, ⟨h₀, restart₀, called⟩, earlier⟩ := forcing.calls
  by_cases own : t = b
  · subst own
    obtain ⟨rfl, rfl, same, rfl⟩ := Phase.calling.inj (calling.symm.trans called)
    obtain ⟨rfl, rfl⟩ := List.cons.inj same
    refine .forced a t (forcing.forced wf running forcing.below forcing.tame fun n' list later => ?_)
    obtain ⟨same, _⟩ | ⟨_, before⟩ := (execute_calls _ _ _ _ _ _ _ _).mp later
    · exact absurd same forcing.apart
    · refine ⟨(earlier n' list before).imp id fun none => by simp [none], fun other member high => ?_⟩
      exact ((forcing.tame a forcing.apart).calls n' list before).high_own member high
  · have tame := forcing.tame t own
    exact .forcing0 a b {
      toUnexecuted := forcing.toUnexecuted.execute
      tame := fun u other => (forcing.tame u other).execute strict calling (tame.target_of_high calling)
      calls := ⟨n₀, (execute_calls _ _ _ _ _ _ _ _).mpr (Or.inr ⟨Ne.symm own, h₀, restart₀, called⟩),
        fun n' list later => by
          obtain ⟨rfl, rfl, rfl⟩ | ⟨_, before⟩ := (execute_calls _ _ _ _ _ _ _ _).mp later
          · exact Or.inl ((earlier n' _ ⟨h, restart, calling⟩).resolve_right (by simp))
          · exact earlier n' list before⟩
      below := execute_below strict forcing.below fun high same =>
        own ((tame.target_of_high calling high).symm.trans same) }

/-- The call of `a` raises itself. -/
theorem Forcing1.execute {a b : ThreadId} (forcing : m.Forcing1 c a b) (strict : c.strict = true) (wf : m.Wf c threads)
    (running : m.Running t threads) (calling : m.sched.phase t = .calling h n (call :: calls) restart) :
    ({ m with sched := m.sched.execute c t h n call calls restart } : Machine).Stage c threads := by
  obtain ⟨n₀, h₀, restart₀, called⟩ := forcing.calls
  by_cases own : t = a
  · subst own
    obtain ⟨rfl, rfl, same, rfl⟩ := Phase.calling.inj (calling.symm.trans called)
    obtain ⟨rfl, rfl⟩ := List.cons.inj same
    refine .forced t b (forcing.forced wf running forcing.below forcing.tame fun n' list later => ?_)
    obtain ⟨_, _, rfl⟩ | ⟨other, _⟩ := (execute_calls _ _ _ _ _ _ _ _).mp later
    · exact ⟨Or.inr (by simp [forcing.apart.symm]), by simp⟩
    · exact absurd rfl other
  · have tame := forcing.tame t own
    exact .forcing1 a b {
      toUnexecuted := forcing.toUnexecuted.execute
      tame := fun u other => (forcing.tame u other).execute strict calling (tame.target_of_high calling)
      calls := ⟨n₀, (execute_calls _ _ _ _ _ _ _ _).mpr (Or.inr ⟨Ne.symm own, h₀, restart₀, called⟩)⟩
      below := execute_below strict forcing.below fun high same =>
        own ((tame.target_of_high calling high).symm.trans same)
      loops := execute_loops calling b _ forcing.loops }

/-- A call of the only thread that can run leaves it at the higher priority. -/
theorem Forced.execute {b : ThreadId} (forced : m.Forced c threads t b) (strict : c.strict = true) (wf : m.Wf c threads)
    (calling : m.sched.phase t = .calling h n (call :: calls) restart)
    (inOrder : m.sched.status.state = .e0e1 → m.sched.status.thdId0 = some t → call.target = t →
      (∃ addr size, h = .beforeEvent0 addr size) →
      m.sched.settled t ≤ n ∨ m.sched.priority t = c.priorityOf t call.level) :
    ({ m with sched := m.sched.execute c t h n call calls restart } : Machine).Forced c threads t b := by
  obtain ⟨early, own⟩ := forced.calls n _ ⟨h, restart, calling⟩
  have handler : ∃ addr size, h = .beforeEvent0 addr size := by
    have fits := (wf.typed t h (by rw [calling]; rfl)).symm.trans forced.event0
    cases h with
    | beforeEvent0 addr size => exact ⟨addr, size, rfl⟩
    | beforeEvent1 | afterEvent0 | afterEvent1 | watchAccess => cases fits
  refine ⟨forced.toUnexecuted.execute, ?_, fun u other => ?_, forced.member, fun n' list later => ?_⟩
  · simp only [State.execute, State.setPhase, Function.update_apply]
    split
    · next same =>
      have late : n < m.sched.settled t := early.resolve_right fun spared => spared call List.mem_cons_self same.symm
      have kept := (inOrder forced.state forced.thdId0 same.symm handler).resolve_left (Nat.not_le.mpr late)
      rw [← same, ← kept]
      exact forced.high
    · exact forced.high
  · exact execute_below strict (forced.others u other) fun high same =>
      other (same.symm.trans (own call List.mem_cons_self high))
  · obtain ⟨_, rfl, rfl⟩ | ⟨other, _⟩ := (execute_calls _ _ _ _ _ _ _ _).mp later
    · refine ⟨early.imp (fun less => ?_) fun spared other member => spared other (List.mem_cons_of_mem _ member),
        fun other member => own other (List.mem_cons_of_mem _ member)⟩
      simp only [State.execute, State.setPhase, Function.update_apply]
      split
      · next same => exact Nat.lt_of_lt_of_le less (same ▸ Nat.le_max_left _ _)
      · exact less
    · exact absurd rfl other

/-- A call of `t` to be executed, unless it lowers in `E0_E1` the thread that a later turn has raised. -/
theorem Stage.execute (stage : m.Stage c threads) (strict : c.strict = true) (wf : m.Wf c threads)
    (running : m.Running t threads) (calling : m.sched.phase t = .calling h n (call :: calls) restart)
    (inOrder : m.sched.status.state = .e0e1 → m.sched.status.thdId0 = some t → call.target = t →
      (∃ addr size, h = .beforeEvent0 addr size) →
      m.sched.settled t ≤ n ∨ m.sched.priority t = c.priorityOf t call.level) :
    ({ m with sched := m.sched.execute c t h n call calls restart } : Machine).Stage c threads := by
  cases stage with
  | quiet quiet => exact .quiet (quiet.execute strict calling)
  | executing a executing => exact .executing a (executing.execute strict calling)
  | forcing0 a b forcing => exact forcing.execute strict wf running calling
  | forcing1 a b forcing => exact forcing.execute strict wf running calling
  | forced a b forced =>
    obtain rfl := forced.only wf running
    exact .forced t b (forced.execute strict wf calling inOrder)
  | executed a b before =>
    exact .executed a b ⟨⟨before.state, before.thdId0, before.thdId1, before.apart, before.overlap⟩, before.event0,
      before.event1⟩
  | done state => exact .done state

end SetPriority

section Turns
variable {h : Handler} {r : Turn}

theorem Tame.ready_ne (tame : m.Tame c t) (ready : m.sched.phase t = .ready h) :
    m.sched.priority t ≠ c.higherPriority := by
  intro high
  obtain ⟨_, _, ⟨_, _, called⟩, _⟩ := tame.high high
  exact nomatch ready.symm.trans called

theorem Tame.takeTurn {u : ThreadId} (tame : m.Tame c u) (ready : m.sched.phase t = .ready h)
    (lowering : Lowering t r.calls) : (m.takeTurn t h r).Tame c u := by
  refine ⟨fun n calls called => ?_, fun high => ?_⟩
  · obtain ⟨rfl, _, rfl⟩ | ⟨_, before⟩ := (takeTurn_calls _ _ _ _ _).mp called
    · exact lowering
    · exact tame.calls n calls before
  · by_cases own : u = t
    · subst own
      exact absurd high (tame.ready_ne ready)
    · obtain ⟨n, calls, called, last⟩ := tame.high high
      exact ⟨n, calls, (takeTurn_calls _ _ _ _ _).mpr (Or.inr ⟨own, called⟩), last⟩

theorem Tame.takeTurn_other {u : ThreadId} (tame : m.Tame c u) (other : u ≠ t) : (m.takeTurn t h r).Tame c u := by
  refine ⟨fun n calls called => ?_, fun high => ?_⟩
  · obtain ⟨own, _⟩ | ⟨_, before⟩ := (takeTurn_calls _ _ _ _ _).mp called
    · exact absurd own other
    · exact tame.calls n calls before
  · obtain ⟨n, calls, called, last⟩ := tame.high high
    exact ⟨n, calls, (takeTurn_calls _ _ _ _ _).mpr (Or.inr ⟨other, called⟩), last⟩

theorem Wf.takeTurn (wf : m.Wf c threads) (ready : m.sched.phase t = .ready h) :
    (m.takeTurn t h r).Wf c threads where
  typed u h' handler := by
    simp only [Machine.takeTurn, State.takeTurn, State.setPhase, Function.update_apply] at handler
    split at handler
    · next own =>
      cases handler
      exact own ▸ wf.typed t h (by rw [ready]; rfl)
    · exact wf.typed u h' handler
  member u inside := by
    by_cases own : u = t
    · exact own ▸ wf.member t (Or.inl (by simp [ready]))
    · refine wf.member u (inside.imp ?_ id)
      simp [Machine.takeTurn, State.takeTurn, State.setPhase, Function.update_of_ne own]
  awake u n calls called some := by
    simp only [Machine.takeTurn, Function.update_apply]
    obtain ⟨rfl, _, rfl⟩ | ⟨other, before⟩ := (takeTurn_calls _ _ _ _ _).mp called
    · rw [if_pos rfl, Turn.slept, Bool.and_eq_false_iff]
      exact Or.inr (List.isEmpty_eq_false_iff.mpr some)
    · rw [if_neg other]
      exact wf.awake u n calls before some
  le := wf.le
  turn_le u n calls called := by
    obtain ⟨_, rfl, _⟩ | ⟨_, before⟩ := (takeTurn_calls _ _ _ _ _).mp called
    · exact Nat.le_refl _
    · exact Nat.le_succ_of_le (wf.turn_le u n calls before)

theorem takeTurn_loops {u : ThreadId} (other : u ≠ t) {h' : Handler} (loops : (m.sched.phase u).Loops h') :
    ((m.takeTurn t h r).sched.phase u).Loops h' := by
  simpa [Machine.takeTurn, State.takeTurn, State.setPhase, Function.update_of_ne other] using loops

theorem takeTurn_blocked {u : ThreadId} (other : u ≠ t) : (m.takeTurn t h r).blocked u = m.blocked u :=
  Function.update_of_ne other _ _

theorem lowering_nil : Lowering t [] := Or.inl nofun

theorem Quiet.takeTurn (quiet : m.Quiet c) (wf : m.Wf c threads) (ready : m.sched.phase t = .ready h)
    (outcome : Outcome m.sched.status t h r) : (m.takeTurn t h r).Stage c threads := by
  have typed : m.point t = h.point := wf.typed t h (by rw [ready]; rfl)
  have own_loops {h' : Handler} (loops : (m.sched.phase t).Loops h') : h = h' := by
    obtain same | ⟨_, _, called⟩ := loops
    · exact Phase.ready.inj (ready.symm.trans same)
    · cases ready.symm.trans called
  have tame (lowering : Lowering t r.calls) (u : ThreadId) : (m.takeTurn t h r).Tame c u :=
    (quiet.tame u).takeTurn ready lowering
  have looping {h : Handler} {calls : List Call} {status : SchedStatus} :
      ((m.takeTurn t h { status, calls, restart := true }).sched.phase t).Loops h :=
    Or.inr ⟨m.sched.turns + 1, calls, by simp [Machine.takeTurn, State.takeTurn, State.setPhase]⟩
  cases outcome with
  | same waits spared0 spared1 =>
    refine .quiet ⟨tame lowering_nil, quiet.state, fun state => ?_, fun state => ?_, quiet.e0Watch⟩
    · obtain ⟨a, own, awake, loops⟩ := quiet.e0 state
      have other : a ≠ t := by
        rintro rfl
        exact spared0 state _ _ (own_loops loops) own
      exact ⟨a, own, (takeTurn_blocked other).trans awake, takeTurn_loops other loops⟩
    · obtain ⟨b, own, loops⟩ := quiet.e1 state
      refine ⟨b, own, ?_⟩
      by_cases other : b = t
      · subst other
        obtain rfl := own_loops loops
        obtain rfl := spared1 state _ _ rfl own
        exact looping
      · exact takeTurn_loops other loops
  | taken0 state lowering some =>
    refine .quiet ⟨tame lowering, by simp [Machine.takeTurn, State.takeTurn, State.setPhase], fun _ => ⟨t, rfl, ?_, looping⟩,
      (by rintro ⟨⟩), (by rintro ⟨⟩)⟩
    simpa [Machine.takeTurn, Turn.slept] using some
  | taken1 state lowering some =>
    exact .quiet ⟨tame lowering, by simp [Machine.takeTurn, State.takeTurn, State.setPhase], (by rintro ⟨⟩),
      fun _ => ⟨t, rfl, looping⟩, (by rintro ⟨⟩)⟩
  | joined state =>
    refine .quiet ⟨tame lowering_low, quiet.state, fun other => ?_, fun other => ?_, quiet.e0Watch⟩
    · cases state.symm.trans other
    · cases state.symm.trans other
  | givenUp state lowering =>
    exact .quiet ⟨tame lowering, by simp [Machine.takeTurn, State.takeTurn, State.setPhase],
      (by rintro ⟨⟩), (by rintro ⟨⟩), (by rintro ⟨⟩)⟩
  | executing state own =>
    obtain ⟨a, same, awake, loops⟩ := quiet.e0 state
    cases same.symm.trans own
    refine .executing t ⟨rfl, own, fun u other => (quiet.tame u).takeTurn_other other, fun n calls called => ?_,
      Or.inl (wf.loops0 loops)⟩
    obtain ⟨_, _, rfl⟩ | ⟨other, _⟩ := (takeTurn_calls _ _ _ _ _).mp called
    · simp
    · exact absurd rfl other
  | watching state => exact absurd state quiet.state.1
  | @force0 addr size a state own conflict =>
    obtain ⟨_, same, awake, loops⟩ := quiet.e0 state
    cases own.symm.trans same
    have apart : a ≠ t := by
      rintro rfl
      cases own_loops loops
    refine .forcing0 a t ⟨⟨⟨rfl, own, rfl, apart, conflict⟩, wf.loops0 loops, typed, (takeTurn_blocked apart).trans awake⟩,
      fun u other => (quiet.tame u).takeTurn_other other, ⟨m.sched.turns + 1, ?_, fun n calls called => ?_⟩,
      (quiet.tame t).ready_ne ready⟩
    · exact (takeTurn_calls _ _ _ _ _).mpr (Or.inl ⟨rfl, rfl, rfl⟩)
    · obtain ⟨same, _⟩ | ⟨_, before⟩ := (takeTurn_calls _ _ _ _ _).mp called
      · exact absurd same apart
      · exact Or.inl (Nat.lt_succ_of_le (wf.turn_le a n calls before))
  | @force1 addr size b state own conflict =>
    obtain ⟨_, same, loops⟩ := quiet.e1 state
    cases own.symm.trans same
    have apart : b ≠ t := by
      rintro rfl
      cases own_loops loops
    refine .forcing1 t b ⟨⟨⟨rfl, rfl, own, apart.symm, (overlap_comm _ _ _ _).trans conflict⟩, typed, wf.loops1 loops, ?_⟩,
      fun u other => (quiet.tame u).takeTurn_other other, ⟨m.sched.turns + 1, ?_⟩, (quiet.tame t).ready_ne ready,
      takeTurn_loops apart loops⟩
    · simp [Machine.takeTurn, Turn.slept]
    · exact (takeTurn_calls _ _ _ _ _).mpr (Or.inl ⟨rfl, rfl, rfl⟩)
  | @meet addr size a _ _ state own apart conflict =>
    obtain ⟨_, same, event0⟩ := quiet.e0Watch state
    cases own.symm.trans same
    exact .executed a t ⟨⟨rfl, own, rfl, apart.symm, conflict⟩, event0, Or.inl typed⟩
  | behind state => exact absurd state quiet.state.2.1
  | exposed state => exact absurd state quiet.state.2.1

theorem Executing.takeTurn {a : ThreadId} (before : m.Executing c a) (wf : m.Wf c threads)
    (ready : m.sched.phase t = .ready h) (outcome : Outcome m.sched.status t h r) :
    (m.takeTurn t h r).Stage c threads := by
  have typed : m.point t = h.point := wf.typed t h (by rw [ready]; rfl)
  cases outcome with
  | same =>
    refine .executing a ⟨before.state, before.own, fun u other => (before.tame u other).takeTurn ready lowering_nil,
      fun n calls called => ?_, before.event0⟩
    obtain ⟨_, _, rfl⟩ | ⟨_, called⟩ := (takeTurn_calls _ _ _ _ _).mp called
    · simp
    · exact before.calls n calls called
  | watching state own =>
    cases before.own.symm.trans own
    have record := before.event0.resolve_left fun waiting => by cases typed.symm.trans waiting
    refine .quiet ⟨fun u => ?_, by simp [Machine.takeTurn, State.takeTurn, State.setPhase], (by rintro ⟨⟩),
      (by rintro ⟨⟩), fun _ => ⟨t, own, record⟩⟩
    by_cases other : u = t
    · subst other
      have here : (m.sched.takeTurn u .afterEvent0
          { status := { m.sched.status with state := .e0Watch }, calls := [setPriorityLow u] }).Calls u
            (m.sched.turns + 1) [setPriorityLow u] := (takeTurn_calls _ _ _ _ _).mpr (Or.inl ⟨rfl, rfl, rfl⟩)
      refine ⟨fun n calls called => ?_, fun _ => ⟨_, _, here, setPriorityLow u, List.mem_singleton.mpr rfl, rfl, by simp⟩⟩
      obtain ⟨_, _, rfl⟩ | ⟨apart, _⟩ := (takeTurn_calls _ _ _ _ _).mp called
      · exact lowering_low
      · exact absurd rfl apart
    · exact (before.tame u other).takeTurn_other other
  | taken0 state | taken1 state => exact absurd before.state state.1
  | givenUp state => rcases state with state | state <;> cases before.state.symm.trans state
  | joined state | executing state | force0 state | force1 state | meet state | behind state | exposed state =>
    cases before.state.symm.trans state

/-- In `E0_E1` only `Idiom1AfterEvent0` and `Idiom1AfterEvent1` do anything. -/
theorem Conflict.outcome {a b : ThreadId} (conflict : m.Conflict a b) (outcome : Outcome m.sched.status t h r) :
    r = { status := m.sched.status } ∨ (h = .afterEvent0 ∧ t = a ∧ r.status = m.sched.status ∧ r.exposed = false) ∨
      h = .afterEvent1 ∧ t = b ∧ r.status.state = .done := by
  cases outcome with
  | @same _ restart waits =>
    left
    cases restart with
    | false => rfl
    | true =>
      rcases waits rfl with state | state <;> exact nomatch conflict.state.symm.trans state
  | behind state own => exact Or.inr (Or.inl ⟨rfl, Option.some.inj (own.symm.trans conflict.thdId0), rfl, rfl⟩)
  | exposed state own => exact Or.inr (Or.inr ⟨rfl, Option.some.inj (own.symm.trans conflict.thdId1), rfl⟩)
  | taken0 state | taken1 state => exact absurd conflict.state state.2.1
  | givenUp state => rcases state with state | state <;> exact nomatch conflict.state.symm.trans state
  | joined state | executing state | watching state | force0 state | force1 state | meet state =>
    exact nomatch conflict.state.symm.trans state

/-- Before the two events no handler behind them runs. -/
theorem Unexecuted.outcome {a b : ThreadId} (before : m.Unexecuted a b) (wf : m.Wf c threads)
    (ready : m.sched.phase t = .ready h) (outcome : Outcome m.sched.status t h r) :
    r = { status := m.sched.status } := by
  have typed : m.point t = h.point := wf.typed t h (by rw [ready]; rfl)
  obtain same | ⟨rfl, rfl, _⟩ | ⟨rfl, rfl, _⟩ := before.toConflict.outcome outcome
  · exact same
  · exact nomatch typed.symm.trans before.event0
  · exact nomatch typed.symm.trans before.event1

theorem Unexecuted.takeTurn {a b : ThreadId} (before : m.Unexecuted a b) :
    (m.takeTurn t h { status := m.sched.status }).Unexecuted a b where
  toConflict := ⟨before.state, before.thdId0, before.thdId1, before.apart, before.overlap⟩
  event0 := before.event0
  event1 := before.event1
  awake := by
    simp only [Machine.takeTurn, Function.update_apply, Turn.slept]
    split
    · rfl
    · exact before.awake

theorem Stage.takeTurn (stage : m.Stage c threads) (wf : m.Wf c threads) (running : m.Running t threads)
    (ready : m.sched.phase t = .ready h) (outcome : Outcome m.sched.status t h r)
    (raised : m.sched.status.state = .e0e1 → m.sched.status.thdId1 = some t →
      ∀ a ∈ m.sched.status.thdId0, (m.sched.phase a).nextCall ≠ some (setPriorityHigh a)) :
    (m.takeTurn t h r).Stage c threads := by
  have noCalls (n : ℕ) (calls : List Call) : ¬ m.sched.Calls t n calls := fun ⟨_, _, called⟩ =>
    nomatch ready.symm.trans called
  cases stage with
  | quiet quiet => exact quiet.takeTurn wf ready outcome
  | executing a executing => exact executing.takeTurn wf ready outcome
  | forcing0 a b forcing =>
    obtain rfl := forcing.outcome wf ready outcome
    obtain ⟨n, called, earlier⟩ := forcing.calls
    have apart : b ≠ t := fun same => noCalls n _ (same ▸ called)
    refine .forcing0 a b ⟨forcing.toUnexecuted.takeTurn, fun u other => (forcing.tame u other).takeTurn ready lowering_nil,
      ⟨n, (takeTurn_calls _ _ _ _ _).mpr (Or.inr ⟨apart, called⟩), fun n' calls later => ?_⟩, forcing.below⟩
    obtain ⟨_, _, rfl⟩ | ⟨_, before⟩ := (takeTurn_calls _ _ _ _ _).mp later
    · exact Or.inr rfl
    · exact earlier n' calls before
  | forcing1 a b forcing =>
    obtain rfl := forcing.outcome wf ready outcome
    obtain ⟨n, called⟩ := forcing.calls
    have apart0 : a ≠ t := fun same => noCalls n _ (same ▸ called)
    have apart1 : b ≠ t := by
      rintro rfl
      obtain ⟨_, _, phase⟩ := called
      exact raised forcing.state forcing.thdId1 a forcing.thdId0 (by rw [phase]; rfl)
    exact .forcing1 a b ⟨forcing.toUnexecuted.takeTurn, fun u other => (forcing.tame u other).takeTurn ready lowering_nil,
      ⟨n, (takeTurn_calls _ _ _ _ _).mpr (Or.inr ⟨apart0, called⟩)⟩, forcing.below, takeTurn_loops apart1 forcing.loops⟩
  | forced a b forced =>
    obtain rfl := forced.only wf running
    obtain rfl := forced.outcome wf ready outcome
    refine .forced t b ⟨forced.toUnexecuted.takeTurn, forced.high, forced.others, forced.member, fun n calls later => ?_⟩
    obtain ⟨_, _, rfl⟩ | ⟨other, _⟩ := (takeTurn_calls _ _ _ _ _).mp later
    · exact ⟨Or.inr nofun, nofun⟩
    · exact absurd rfl other
  | executed a b before =>
    obtain rfl | ⟨_, _, same, _⟩ | ⟨_, _, state⟩ := before.outcome outcome
    · exact .executed a b ⟨⟨before.state, before.thdId0, before.thdId1, before.apart, before.overlap⟩, before.event0,
        before.event1⟩
    · have status : (m.takeTurn t h r).sched.status = m.sched.status := same
      have conflict : (m.takeTurn t h r).Conflict a b :=
        ⟨status ▸ before.state, status ▸ before.thdId0, status ▸ before.thdId1, before.apart, status ▸ before.overlap⟩
      exact .executed a b ⟨conflict, status ▸ before.event0, status ▸ before.event1⟩
    · exact .done state
  | done state =>
    refine .done ?_
    cases outcome with
    | same => exact state
    | taken0 other | taken1 other => exact absurd state other.2.2
    | givenUp other => rcases other with other | other <;> exact nomatch state.symm.trans other
    | joined other | executing other | watching other | force0 other | force1 other | meet other | behind other
    | exposed other => exact nomatch state.symm.trans other

/-- `ActivelyExposed` is called behind both events. -/
theorem Stage.exposed (stage : m.Stage c threads) (wf : m.Wf c threads) (ready : m.sched.phase t = .ready h)
    (outcome : Outcome m.sched.status t h r) (exposed : r.exposed = true) : Genuine m.accesses := by
  have typed : m.point t = h.point := wf.typed t h (by rw [ready]; rfl)
  cases outcome with
  | exposed state own =>
    have unexecuted {a b : ThreadId} (before : m.Unexecuted a b) : Genuine m.accesses := by
      cases before.thdId1.symm.trans own
      exact nomatch typed.symm.trans before.event1
    cases stage with
    | quiet quiet => exact absurd state quiet.state.2.1
    | executing a executing => exact nomatch state.symm.trans executing.state
    | forcing0 a b forcing => exact unexecuted forcing.toUnexecuted
    | forcing1 a b forcing => exact unexecuted forcing.toUnexecuted
    | forced a b forced => exact unexecuted forced.toUnexecuted
    | executed a b before =>
      cases before.thdId1.symm.trans own
      exact before.event1.resolve_left fun waiting => nomatch typed.symm.trans waiting
    | done other => exact nomatch state.symm.trans other
  | _ => exact nomatch exposed

end Turns

/-- In `E0_E1`, the thread of event 0 does not lower itself behind the turn that has raised it, and the thread
of event 1 takes no turn before the thread of event 0 has raised itself. -/
def Prompt (c : Config) (m : Machine) : MachineEvent → Prop
  | .run t .setPriority =>
    match m.sched.phase t with
    | .calling (.beforeEvent0 ..) n (call :: _) _ =>
      m.sched.status.state = .e0e1 → m.sched.status.thdId0 = some t → call.target = t →
        m.sched.settled t ≤ n ∨ m.sched.priority t = c.priorityOf t call.level
    | _ => True
  | .run t (.turn _) =>
    m.sched.status.state = .e0e1 → m.sched.status.thdId1 = some t →
      ∀ a ∈ m.sched.status.thdId0, (m.sched.phase a).nextCall ≠ some (setPriorityHigh a)
  | _ => True

instance (c : Config) (m : Machine) (e : MachineEvent) : Decidable (m.Prompt c e) := by
  unfold Prompt
  split
  · split <;> infer_instance
  · infer_instance
  · infer_instance

theorem Inv.act (inv : m.Inv c threads) (strict : c.strict = true) (running : m.Running t threads) {action : Action}
    (prompt : m.Prompt c (.run t action)) (acted : m.act c t action = some m') : m'.Inv c threads := by
  cases action with
  | reach0 addr size =>
    simp only [Machine.act] at acted
    split at acted
    · next elsewhere => exact inv.enter running.1 (by simp [elsewhere]) rfl acted
    · cases acted
  | reach1 addr size =>
    simp only [Machine.act] at acted
    split at acted
    · next elsewhere => exact inv.enter running.1 (by simp [elsewhere]) rfl acted
    · cases acted
  | watch addr size =>
    simp only [Machine.act] at acted
    split at acted
    · next elsewhere => exact inv.enter running.1 (by simp [elsewhere]) rfl acted
    · cases acted
  | turn choice =>
    simp only [Machine.act] at acted
    split at acted
    · next h ready =>
      obtain ⟨r, turned, rfl⟩ := Option.map_eq_some_iff.mp acted
      have outcome := turn_outcome turned
      refine ⟨inv.wf.takeTurn ready, inv.stage.takeTurn inv.wf running ready outcome prompt, fun exposed => ?_⟩
      obtain before | now := Bool.or_eq_true_iff.mp exposed
      · exact inv.genuine before
      · exact inv.stage.exposed inv.wf ready outcome now
    · cases acted
  | setPriority =>
    obtain ⟨sched, stepped, rfl⟩ := Option.map_eq_some_iff.mp acted
    simp only [State.step] at stepped
    split at stepped
    · next h n call calls restart calling =>
      cases stepped
      refine ⟨inv.wf.execute strict calling, inv.stage.execute strict inv.wf running calling ?_, inv.genuine⟩
      rintro state own target ⟨addr, size, rfl⟩
      rw [Prompt, calling] at prompt
      exact prompt state own target
    · cases stepped
  | leave =>
    obtain ⟨sched, stepped, rfl⟩ := Option.map_eq_some_iff.mp acted
    exact inv.leave running.1 stepped
  | access =>
    simp only [Machine.act] at acted
    split at acted
    · next outside here =>
      cases acted
      exact inv.execute running outside (Or.inl ⟨rfl, here⟩)
    · next outside here =>
      cases acted
      exact inv.execute running outside (Or.inr ⟨rfl, here⟩)
    · cases acted
  | after =>
    simp only [Machine.act] at acted
    split at acted
    · next here => exact inv.enter running.1 (by simp [here]) rfl acted
    · next here => exact inv.enter running.1 (by simp [here]) rfl acted
    · cases acted
  | schedYield =>
    simp only [Machine.act] at acted
    split at acted
    · next elsewhere =>
      obtain ⟨sched, stepped, rfl⟩ := Option.map_eq_some_iff.mp acted
      simp only [State.step] at stepped
      split at stepped
      · cases stepped
        exact inv.schedYield strict elsewhere
      · cases stepped
    · cases acted
  | block =>
    simp only [Machine.act] at acted
    split at acted
    · next outside here =>
      cases acted
      exact inv.setBlocked true fun _ => ⟨outside, by simp [here]⟩
    · next outside here =>
      cases acted
      exact inv.setBlocked true fun _ => ⟨outside, by simp [here]⟩
    · cases acted

theorem start_inv (strict : c.strict = true) (blocked : ThreadId → Bool) :
    (Machine.start c blocked).Inv c threads := by
  have normal (t : ThreadId) : (Machine.start c blocked).sched.priority t < c.higherPriority :=
    Config.priorityOf_lt strict (show Level.normal ≠ .high from nofun)
  have noCalls (t : ThreadId) (n : ℕ) (calls : List Call) : ¬ (Machine.start c blocked).sched.Calls t n calls :=
    fun ⟨_, _, called⟩ => nomatch called
  refine ⟨⟨nofun, ?_, fun t n calls called => absurd called (noCalls t n calls), fun t => Int.le_of_lt (normal t),
    fun t n calls called => absurd called (noCalls t n calls)⟩, ?_, nofun⟩
  · rintro t (inside | inside) <;> exact absurd rfl inside
  · refine .quiet ⟨fun t => ⟨fun n calls called => absurd called (noCalls t n calls), fun high => ?_⟩,
      ⟨nofun, nofun, nofun⟩, nofun, nofun, nofun⟩
    exact absurd high (Int.ne_of_lt (normal t))

end Actions

end Machine

theorem exposed_genuine {c : Config} (strict : c.strict = true) {threads : List ThreadId} {blocked : ThreadId → Bool}
    {m : Machine}
    (reached : Runs.Reach (· = Machine.start c blocked) (Machine.Prompt c) (Machine.step c threads) m)
    (exposed : m.exposed = true) : Genuine m.accesses := by
  have inv : m.Inv c threads := by
    refine reached.invariant (Machine.Inv c threads) (fun m fresh => ?_) fun m e next inv prompt stepped => ?_
    · rw [fresh]
      exact Machine.start_inv strict blocked
    cases e with
    | wake t =>
      cases stepped
      exact inv.setBlocked false nofun
    | run t action =>
      simp only [Machine.step] at stepped
      split at stepped
      · next running => exact inv.act strict running prompt stepped
      · exact nomatch stepped
  exact inv.genuine exposed

/-- The default knobs; thread 1 is created after thread 0. -/
def ordered : Config where
  toKnobs := defaults.toKnobs
  debug := true
  oriPriority t := if t = 0 then 3 else 4
  initial t := by
    split
    · exact Or.inr (by decide)
    · exact Or.inr (by decide)

def run (t : ThreadId) (actions : List Action) : List MachineEvent := actions.map (.run t)

/-- Thread 0 waits in front of event 0, thread 1 meets it there and lets it go first. -/
def promptRun : List MachineEvent :=
  run 0 [.reach0 0 4, .turn true, .setPriority, .leave] ++ [.wake 1] ++
  run 1 [.reach1 0 4, .turn true, .setPriority] ++
  run 0 [.turn true, .leave, .access, .after, .turn true, .setPriority, .setPriority] ++
  run 1 [.leave, .access, .after, .turn true]

theorem exposed_genuine_prompt :
    ∃ m, Runs.Reach (· = Machine.start ordered (· ≠ 0)) (Machine.Prompt ordered) (Machine.step ordered [0, 1]) m ∧
      m.exposed = true ∧ Genuine m.accesses := by
  have reached : Runs.Reach (· = Machine.start ordered (· ≠ 0)) (Machine.Prompt ordered)
      (Machine.step ordered [0, 1]) _ :=
    Runs.Reach.follow (.start rfl) (rfl : Runs.follow _ _ _ promptRun = some _)
  exact ⟨_, reached, rfl, exposed_genuine rfl reached rfl⟩

/-- Thread 1 wakes up between the turn of thread 0 and its `SetPriorityLow`. -/
def overridden : List MachineEvent :=
  run 0 [.reach0 0 4, .turn true] ++ [.wake 1] ++ run 1 [.reach1 0 4, .turn true, .setPriority] ++
  run 0 [.setPriority] ++ run 1 [.leave, .access, .after, .turn true]

/-- Thread 1 waits for event 0 and sleeps. Thread 0 has yielded, and is preempted before it raises itself. -/
def preempted : List MachineEvent :=
  run 0 [.schedYield, .block] ++ [.wake 1] ++
  run 1 [.reach1 0 4, .turn true, .setPriority, .leave, .turn false] ++ [.wake 0] ++
  run 0 [.reach0 0 4, .turn true] ++ [.wake 1] ++
  run 1 [.leave, .turn true, .leave, .access, .after, .turn true]

theorem exposed_without_event0 :
    (∃ m, Runs.Reach (· = Machine.start ordered (· ≠ 0)) (fun _ _ => True) (Machine.step ordered [0, 1]) m ∧
      m.exposed = true ∧ ∀ access ∈ m.accesses, access.idx ≠ 0) ∧
    ∃ m, Runs.Reach (· = Machine.start ordered (· ≠ 0)) (fun _ _ => True) (Machine.step ordered [0, 1]) m ∧
      m.exposed = true ∧ ∀ access ∈ m.accesses, access.idx ≠ 0 := by
  have first : Runs.Reach (· = Machine.start ordered (· ≠ 0)) (fun _ _ => True) (Machine.step ordered [0, 1]) _ :=
    Runs.Reach.follow (.start rfl) (rfl : Runs.follow _ _ _ overridden = some _)
  have second : Runs.Reach (· = Machine.start ordered (· ≠ 0)) (fun _ _ => True) (Machine.step ordered [0, 1]) _ :=
    Runs.Reach.follow (.start rfl) (rfl : Runs.follow _ _ _ preempted = some _)
  exact ⟨⟨_, first, rfl, by decide +kernel⟩, ⟨_, second, rfl, by decide +kernel⟩⟩

end Maple.Idiom.Idiom1
