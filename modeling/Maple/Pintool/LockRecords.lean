import Maple.Pintool.MultiLockExact
import Maple.Race.Genuine

/-! Records of an epoch and a lockset, as AccuLock and HistLockPlus keep them: the
check of an access against them, and what its reports mean. -/
namespace Maple.Pintool
open Race

/-- Accesses that fork and join do not order, made under disjoint locksets. -/
def LocksApart (tr : List Hook) (i : ℕ) (t : ThreadId) (n : ℕ) (u : ThreadId) : Prop :=
  ¬ forkJoinOrder.HB tr i n ∧ ∀ a, Held tr i t a → ¬ Held tr n u a

/-- `if (!epoch.HappensBefore(curr_vc) && lockset.IsDisjoint(curr_ls))` with its
body. A missing instruction fails the debug assertion. -/
def checkRecord (curr : ThreadId) (currVc : VectorClock) (currLs : Lockset)
    (report : ThreadId → InstId → RaceReport) (elp : Elp) (inst : Option InstId) :
    Option (Bool × List DbCall) :=
  if !elp.1.happensBefore currVc && elp.2.isDisjoint currLs then
    if curr ≠ elp.1.tid ∧ currVc.getClock elp.1.tid < elp.1.clock then do
      let inst ← inst
      return (true, [.createRace (report elp.1.tid inst)])
    else some (true, [])
  else some (false, [])

/-- The loop over records. -/
def checkRecords (curr : ThreadId) (currVc : VectorClock) (currLs : Lockset)
    (report : ThreadId → InstId → RaceReport) : List (Elp × Option InstId) → Option (Bool × List DbCall)
  | [] => some (false, [])
  | (elp, inst) :: rest => do
    let (raced, calls) ← checkRecord curr currVc currLs report elp inst
    let (racedLater, later) ← checkRecords curr currVc currLs report rest
    return (raced || racedLater, calls ++ later)

/-- A record was made by one access: its stamp, its instruction, the mutexes held. -/
def LockEntry (unitSize : Address) (tr : List Hook) (epoch : Stamps) (n : ℕ) (k : RaceEventType)
    (x : Address) (elp : Elp) (stored : Option InstId) : Prop :=
  ∃ inst i, stored = some inst ∧ Made unitSize tr epoch n k x elp.1.tid elp.1.clock inst i ∧
    ∀ a, a ∈ elp.2 ↔ Held tr i elp.1.tid a

/-- What a report of a hybrid detector at position `n` says. -/
def HybridCall (unitSize : Address) (tr : List Hook) (n : ℕ) (_ : Address) (call : DbCall) : Prop :=
  ∃ r, call = .createRace r ∧ Genuine unitSize tr (LocksApart tr) n r

section
variable {unitSize : Address} {tr : List Hook} {epoch epoch' : Stamps} {n : ℕ} {x : Address}
  {k l : RaceEventType} {elp : Elp} {stored : Option InstId} {G : Type} {b : DetectorBase G}
  {curr : ThreadId} {inst : InstId} {currVc : VectorClock} {currLs : Lockset}

theorem LockEntry.later (entry : LockEntry unitSize tr epoch n k x elp stored) :
    LockEntry unitSize tr epoch (n + 1) k x elp stored := by
  obtain ⟨inst, i, named, made, locks⟩ := entry
  exact ⟨inst, i, named, made.later, locks⟩

theorem LockEntry.restamp (entry : LockEntry unitSize tr epoch n k x elp stored)
    (same : ∀ i < n, epoch' i = epoch i) : LockEntry unitSize tr epoch' n k x elp stored := by
  obtain ⟨inst, i, named, made, locks⟩ := entry
  exact ⟨inst, i, named, made.restamp same, locks⟩

/-- The record of the access at hand. -/
theorem LockEntry.here (looks : Looks forkJoinOrder unitSize tr epoch n x b k curr inst currVc)
    (locks : ∀ a, a ∈ currLs ↔ Held tr n curr a) :
    LockEntry unitSize tr epoch (n + 1) k x (Epoch.make curr (currVc.getClock curr), currLs) (some inst) :=
  ⟨inst, n, rfl, looks.made, locks⟩

theorem checkRecord_sound (entry : elp.1 ≠ {} → LockEntry unitSize tr epoch n k x elp stored)
    (looks : Looks forkJoinOrder unitSize tr epoch n x b l curr inst currVc)
    (locks : ∀ a, a ∈ currLs ↔ Held tr n curr a) (conflict : Conflict k l) :
    ∃ raced calls, checkRecord curr currVc currLs (fun t i => ⟨x, t, i, k, curr, inst, l⟩) elp stored =
      some (raced, calls) ∧ ∀ call ∈ calls, HybridCall unitSize tr n x call := by
  unfold checkRecord
  split
  · next racing =>
    rw [Bool.and_eq_true, Lockset.isDisjoint_iff] at racing
    split
    · next other =>
      have used : elp.1 ≠ {} := by
        intro blank
        simp [blank] at other
      obtain ⟨inst', i, rfl, made, held⟩ := entry used
      obtain ⟨addr, size, here, member⟩ := looks.hook
      have unordered := made.unordered forkJoinOrder_hooks looks.sync here looks.found other.2
      refine ⟨true, _, rfl, fun call reported => ⟨_, List.mem_singleton.mp reported, ?_⟩⟩
      apply made.genuine here member other.1 conflict
      exact ⟨unordered, fun a before now => racing.2 a ((held a).mpr before) ((locks a).mpr now)⟩
    · exact ⟨true, [], rfl, fun _ reported => nomatch reported⟩
  · exact ⟨false, [], rfl, fun _ reported => nomatch reported⟩

theorem checkRecords_sound (records : List (Elp × Option InstId))
    (entries : ∀ r ∈ records, r.1.1 ≠ {} → LockEntry unitSize tr epoch n k x r.1 r.2)
    (looks : Looks forkJoinOrder unitSize tr epoch n x b l curr inst currVc)
    (locks : ∀ a, a ∈ currLs ↔ Held tr n curr a) (conflict : Conflict k l) :
    ∃ raced calls, checkRecords curr currVc currLs (fun t i => ⟨x, t, i, k, curr, inst, l⟩) records =
      some (raced, calls) ∧ ∀ call ∈ calls, HybridCall unitSize tr n x call := by
  induction records with
  | nil => exact ⟨false, [], rfl, fun _ reported => nomatch reported⟩
  | cons r rest ih =>
    obtain ⟨first, others⟩ := List.forall_mem_cons.mp entries
    obtain ⟨raced, calls, ran, sound⟩ := checkRecord_sound first looks locks conflict
    obtain ⟨racedLater, later, ranLater, soundLater⟩ := ih others
    refine ⟨raced || racedLater, calls ++ later, by simp [checkRecords, ran, ranLater], ?_⟩
    intro call reported
    exact (List.mem_append.mp reported).elim (sound call) (soundLater call)

end
end Maple.Pintool
