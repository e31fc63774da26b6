import Maple.Pintool.Gate

/-! The window of `pthread_create`. The new thread announces itself to its parent
under the kernel lock and only then runs the analyzers, so that the parent can be
far ahead of the call when `Detector1::ThreadStart` reads its clock. -/
namespace Maple.Pintool
open Race

/-- How far the parent is in its `PthreadCreate` wrapper. -/
inductive WrapperPhase where
  | before
  /-- Behind `CallOriginal`, in `WaitForNewChild`. -/
  | created
  /-- Behind `sem->Wait()`. -/
  | awaited
  | returned
  deriving DecidableEq

/-- How far the child is in `ExecutionControl::ThreadStart`. -/
inductive StartPhase where
  | unborn
  | spawned
  /-- Behind `UnlockKernel()`. -/
  | posted
  /-- Behind `HandleThreadStart()`. -/
  | started
  deriving DecidableEq

/-- An access of the parent behind its wrapper: its time stamp, and whether the
child had its clock by then. -/
structure LateAccess where
  stamp : ℕ
  behindStart : Bool

/-- One call of `pthread_create`. `birth`, `synced` and `late` are history. -/
structure Creation (G M : Type) where
  wrapper : WrapperPhase := .before
  child : StartPhase := .unborn
  /-- `thd_create_sem_map_[parent]` -/
  sem : ℕ := 0
  /-- `child_thd_map_[parent]` -/
  childThd : Option ThreadId := none
  /-- What `WaitForNewChild` returns. -/
  newChild : Option ThreadId := none
  detector : Detector G M
  birth : ℕ := 0
  synced : Bool := false
  late : List LateAccess := []

inductive CreationEvent where
  | callOriginal
  | recordChild
  | semWait
  | takeChild
  | handleThreadStart
  | hook (e : Hook)

/-- Hooks that read no clock of another thread. -/
def quiet : Hook → Bool
  | .beforeMemRead .. | .beforeMemWrite .. | .beforeAtomicInst _ | .afterAtomicInst _
  | .beforeCall .. => true
  | _ => false

def accesses : Hook → Bool
  | .beforeMemRead .. | .beforeMemWrite .. => true
  | _ => false

namespace Creation
variable {G M : Type}

/-- The guards: the order of the two functions, the semaphore, and that a thread
makes calls only outside them. -/
def Allows (parent child : ThreadId) (s : Creation G M) : CreationEvent → Prop
  | .callOriginal => s.wrapper = .before
  | .recordChild => s.child = .spawned
  | .semWait => s.wrapper = .created ∧ 0 < s.sem
  | .takeChild => s.wrapper = .awaited
  | .handleThreadStart => s.child = .posted
  | .hook (.threadStart curr _) => curr ≠ parent ∧ curr ≠ child
  | .hook e => (e.thread = some parent → s.wrapper = .before ∨ s.wrapper = .returned) ∧
      (e.thread = some child → s.child = .started)

instance (parent child : ThreadId) (s : Creation G M) (e : CreationEvent) :
    Decidable (s.Allows parent child e) := by
  unfold Allows
  split <;> infer_instance

def clockOf (s : Creation G M) (t u : ThreadId) : ℕ := s.detector.clockOf (.thread t) u

def step (alg : Algorithm G M) (parent child : ThreadId) (s : Creation G M) :
    CreationEvent → Option (Creation G M)
  | .callOriginal => some { s with wrapper := .created, child := .spawned }
  | .recordChild =>
    some { s with child := .posted, childThd := some child, sem := s.sem + 1 }
  | .semWait => some { s with wrapper := .awaited, sem := s.sem - 1 }
  | .takeChild => some { s with wrapper := .returned, newChild := s.childThd, childThd := none }
  | .handleThreadStart => do
    let (detector, _) ← s.detector.step alg (.threadStart child parent)
    return { s with child := .started, detector, birth := detector.clockOf (.thread child) parent }
  | .hook e => do
    let (detector, _) ← s.detector.step alg e
    return { s with
      detector
      synced := s.synced || (e.thread = some child && !quiet e)
      late :=
        if s.wrapper = .returned ∧ e.thread = some parent ∧ accesses e = true then
          ⟨s.clockOf parent parent, s.child = .started⟩ :: s.late
        else s.late }

/-- Whatever interleaving of the two threads with each other and with the others. -/
abbrev Reachable (alg : Algorithm G M) (parent child : ThreadId) (d : Detector G M) :
    Creation G M → Prop :=
  Runs.Reach (· = { detector := d }) (Allows parent child) (step alg parent child)

/-- The semaphore hands over exactly one child. -/
structure Handed (child : ThreadId) (s : Creation G M) : Prop where
  born : s.wrapper = .before ↔ s.child = .unborn
  waiting : s.child = .spawned → s.wrapper = .created
  sem : s.sem = if (s.child = .posted ∨ s.child = .started) ∧ s.wrapper = .created then 1 else 0
  childThd : s.child = .posted ∨ s.child = .started → s.wrapper ≠ .returned → s.childThd = some child
  newChild : s.wrapper = .returned → s.newChild = some child

/-- The clocks of the two threads against the history. -/
structure Window (parent child : ThreadId) (s : Creation G M) : Prop where
  unsynced : s.child ≠ .started → s.synced = false
  /-- Before the child has its clock, all accesses lie behind what it will read. -/
  early : s.child ≠ .started → ∀ a ∈ s.late, a.stamp ≤ s.clockOf parent parent ∧ a.behindStart = false
  ticked : s.child = .started → s.birth < s.clockOf parent parent
  late : s.child = .started → ∀ a ∈ s.late, s.birth < a.stamp ↔ a.behindStart = true
  own : s.child = .started → s.synced = false → s.clockOf child parent = s.birth

variable {alg : Algorithm G M} {parent child : ThreadId} {s next : Creation G M}

theorem Handed.step (handed : s.Handed child) {e : CreationEvent} (allowed : s.Allows parent child e)
    (stepped : s.step alg parent child e = some next) : next.Handed child := by
  obtain ⟨born, waiting, sem, childThd, newChild⟩ := handed
  cases e with
  | handleThreadStart =>
    obtain ⟨_, _, same⟩ := Option.bind_eq_some_iff.mp stepped
    cases same
    simp only [Allows] at allowed
    constructor <;> simp_all
  | hook e =>
    obtain ⟨_, _, same⟩ := Option.bind_eq_some_iff.mp stepped
    cases same
    exact ⟨born, waiting, sem, childThd, newChild⟩
  | _ =>
    cases stepped
    simp only [Allows] at allowed
    cases stage : s.child <;> constructor <;> simp_all

/-- `WaitForNewChild` returns the thread that the call has created. -/
theorem waitForNewChild_returns {d : Detector G M} (reached : Reachable alg parent child d s)
    (returned : s.wrapper = .returned) : s.newChild = some child := by
  have handed : s.Handed child := by
    apply reached.invariant (Handed child)
    · rintro s rfl
      constructor <;> simp
    · exact fun s e next handed allowed stepped => handed.step allowed stepped
  exact handed.newChild returned

theorem quiet_clocks {b b' : DetectorBase G} {e : Hook} (still : quiet e = true)
    (result : b.onHook alg e = some b') (t u : ThreadId) :
    b'.clockOf (.thread t) u = b.clockOf (.thread t) u := by
  cases e with
  | beforeMemRead | beforeMemWrite | beforeAtomicInst | afterAtomicInst | beforeCall =>
    cases result
    rfl
  | _ => exact nomatch still

/-- A hook outside the two functions. -/
theorem Window.hook (window : s.Window parent child) (derived : OnDetector1 alg)
    (apart : parent ≠ child) {e : Hook} (allowed : s.Allows parent child (.hook e))
    (stepped : s.step alg parent child (.hook e) = some next) : next.Window parent child := by
  obtain ⟨⟨detector, out⟩, made, same⟩ := Option.bind_eq_some_iff.mp stepped
  cases same
  obtain ⟨b, result, clocks⟩ := Detector.step_clockOf made
  have notStart : ∀ t, t = parent ∨ t = child → ∀ q, e ≠ .threadStart t q := by
    rintro t mine q rfl
    exact mine.elim allowed.1 allowed.2
  have childStarted : e.thread = some child → s.child = .started := by
    intro acting
    cases e with
    | threadStart curr q => exact absurd (Option.some.inj acting) allowed.2
    | _ => exact allowed.2 acting
  have grown : s.clockOf parent parent ≤ detector.clockOf (.thread parent) parent := by
    rw [clocks]
    exact derived.grows.clock_le result (notStart parent (Or.inl rfl)) parent
  have kept : (e.thread = some child → quiet e = true) →
      detector.clockOf (.thread child) parent = s.clockOf child parent := by
    intro still
    rw [clocks]
    by_cases acting : e.thread = some child
    · exact quiet_clocks (still acting) result child parent
    · exact derived.grows.clock_eq result acting apart
  constructor
  · intro waiting
    simp only [window.unsynced waiting, Bool.false_or, Bool.and_eq_false_iff, decide_eq_false_iff_not]
    exact Or.inl fun acting => waiting (childStarted acting)
  · intro waiting a member
    simp only at member
    split at member
    · rcases List.mem_cons.mp member with rfl | member
      · exact ⟨grown, decide_eq_false waiting⟩
      · obtain ⟨below, flag⟩ := window.early waiting a member
        exact ⟨below.trans grown, flag⟩
    · obtain ⟨below, flag⟩ := window.early waiting a member
      exact ⟨below.trans grown, flag⟩
  · exact fun started => (window.ticked started).trans_le grown
  · intro started a member
    simp only at member
    split at member
    · rcases List.mem_cons.mp member with rfl | member
      · exact ⟨fun _ => decide_eq_true started, fun _ => window.ticked started⟩
      · exact window.late started a member
    · exact window.late started a member
  · intro started unsynced
    simp only [Bool.or_eq_false_iff, Bool.and_eq_false_iff, decide_eq_false_iff_not,
      Bool.not_eq_false'] at unsynced
    refine (kept fun acting => ?_).trans (window.own started unsynced.1)
    exact unsynced.2.resolve_left (fun other => other acting)

/-- `Detector1::ThreadStart` takes whatever the clock of the parent has become. -/
theorem Window.handleThreadStart (window : s.Window parent child) (apart : parent ≠ child)
    (valid : parent ≠ invalidThdId) (posted : s.child = .posted)
    (stepped : s.step alg parent child .handleThreadStart = some next) :
    next.Window parent child := by
  obtain ⟨⟨detector, out⟩, made, same⟩ := Option.bind_eq_some_iff.mp stepped
  cases same
  obtain ⟨b, result, clocks⟩ := Detector.step_clockOf made
  have waiting : s.child ≠ .started := by
    rw [posted]
    exact nofun
  have birth : detector.clockOf (.thread child) parent = s.clockOf parent parent := by
    rw [clocks, threadStart_clocks valid result, if_pos rfl, VectorClock.getClock_increment,
      if_neg (Ne.symm apart)]
    simp [clockOf]
  have ticked : detector.clockOf (.thread parent) parent = s.clockOf parent parent + 1 := by
    rw [clocks, threadStart_clocks valid result, if_neg apart, if_pos ⟨rfl, rfl⟩]
    rfl
  constructor
  · exact fun unstarted => absurd rfl unstarted
  · exact fun unstarted => absurd rfl unstarted
  · intro _
    simp only [clockOf, birth, ticked]
    exact Nat.lt_succ_self _
  · intro _ a member
    obtain ⟨below, flag⟩ := window.early waiting a member
    simp only [birth, flag, Bool.false_eq_true, iff_false, not_lt]
    exact below
  · exact fun _ _ => rfl

theorem Window.step (window : s.Window parent child) (derived : OnDetector1 alg)
    (apart : parent ≠ child) (valid : parent ≠ invalidThdId) {e : CreationEvent}
    (handed : s.Handed child) (allowed : s.Allows parent child e)
    (stepped : s.step alg parent child e = some next) : next.Window parent child := by
  obtain ⟨unsynced, early, ticked, late, own⟩ := window
  cases e with
  | hook e => exact Window.hook ⟨unsynced, early, ticked, late, own⟩ derived apart allowed stepped
  | handleThreadStart =>
    exact Window.handleThreadStart ⟨unsynced, early, ticked, late, own⟩ apart valid allowed stepped
  | callOriginal =>
    cases stepped
    have waiting : s.child ≠ .started := by
      rw [handed.born.mp allowed]
      exact nofun
    exact ⟨fun _ => unsynced waiting, fun _ => early waiting, nofun, nofun, nofun⟩
  | recordChild =>
    cases stepped
    have waiting : s.child ≠ .started := by
      rw [show s.child = .spawned from allowed]
      exact nofun
    exact ⟨fun _ => unsynced waiting, fun _ => early waiting, nofun, nofun, nofun⟩
  | semWait | takeChild =>
    cases stepped
    exact ⟨unsynced, early, ticked, late, own⟩

end Creation
open Creation

/-- The child is born with the clock its parent had at the call exactly if the
parent makes no access between its wrapper's return and the child's
`Detector1::ThreadStart`; until it synchronises itself it keeps that clock. -/
theorem child_starts_at_create {G M : Type} {alg : Algorithm G M} (derived : OnDetector1 alg)
    {parent child : ThreadId} (apart : parent ≠ child) (valid : parent ≠ invalidThdId)
    {d : Detector G M} {s : Creation G M} (reached : Reachable alg parent child d s)
    (started : s.child = .started) :
    (s.synced = false → s.clockOf child parent = s.birth) ∧
      ((∀ a ∈ s.late, ¬ a.stamp ≤ s.birth) ↔ ∀ a ∈ s.late, a.behindStart = true) := by
  have both : s.Handed child ∧ s.Window parent child := by
    apply reached.invariant (fun s => s.Handed child ∧ s.Window parent child)
    · rintro s rfl
      exact ⟨by constructor <;> simp, by constructor <;> simp⟩
    · exact fun s e next both allowed stepped => ⟨both.1.step allowed stepped,
        both.2.step derived apart valid both.1 allowed stepped⟩
  refine ⟨both.2.own started, forall₂_congr fun a member => ?_⟩
  rw [not_le]
  exact both.2.late started a member

/-- The main thread has started. -/
def mainStarted : Detector Unit DjitMeta :=
  (start DjitMeta 4 false {} ()).onBase
    (((start DjitMeta 4 false {} ()).setVc 1 (({} : VectorClock).increment 1)).enroll 1)

/-- Thread 2 starts at once; thread 1 writes behind its wrapper. -/
theorem child_starts_at_create_prompt : ∃ s, Reachable djit 1 2 mainStarted s ∧
    s.child = .started ∧ s.late ≠ [] ∧ (s.synced = false → s.clockOf 2 1 = s.birth) ∧
      ((∀ a ∈ s.late, ¬ a.stamp ≤ s.birth) ↔ ∀ a ∈ s.late, a.behindStart = true) := by
  have ran : ∃ s, Reachable djit 1 2 mainStarted s ∧ decide (s.child = .started ∧ s.late ≠ []) = true := by
    apply Runs.Reach.of_follow (E := CreationEvent) (s := { detector := mainStarted }) ?_
      [.callOriginal, .recordChild, .handleThreadStart, .semWait, .takeChild,
        .hook (.beforeMemWrite 1 7 64 4)]
    · decide
    · rfl
  obtain ⟨s, reached, test⟩ := ran
  obtain ⟨started, accessed⟩ := of_decide_eq_true test
  exact ⟨s, reached, started, accessed,
    child_starts_at_create djit_onDetector1 (by decide) (by decide) reached started⟩

/-- The post overtakes the analyzers: thread 1 is back in the program and writes
before thread 2 takes its clock. -/
theorem overtaking_parent_precedes_child : ¬ ∀ s, Reachable djit 1 2 mainStarted s →
    s.child = .started → ∀ a ∈ s.late, ¬ a.stamp ≤ s.birth := by
  intro always
  have ran : ∃ s, Reachable djit 1 2 mainStarted s ∧
      decide (s.child = .started ∧ ∃ a ∈ s.late, a.stamp ≤ s.birth) = true := by
    apply Runs.Reach.of_follow (E := CreationEvent) (s := { detector := mainStarted }) ?_
      [.callOriginal, .recordChild, .semWait, .takeChild, .hook (.beforeMemWrite 1 7 64 4),
        .handleThreadStart]
    · decide
    · rfl
  obtain ⟨s, reached, test⟩ := ran
  obtain ⟨started, a, member, counted⟩ := of_decide_eq_true test
  exact always s reached started a member counted

end Maple.Pintool
