import Maple.Race.Detector

/-! The Djit algorithm of `race/djit.cc`. The detector of `pintool/djit.cpp`
processes accesses in the same way, but sits on `Detector1`. -/
namespace Maple.Race

structure DjitMeta where
  racy : Bool := false
  writerVc : VectorClock := {}
  writerInstTable : OrdMap ThreadId InstId := ∅
  readerVc : VectorClock := {}
  readerInstTable : OrdMap ThreadId InstId := ∅
  raceInstSet : Std.ExtTreeSet InstId := ∅

/-- The loop that reports the entries of a clock that the current thread has
not seen. An entry without instruction fails the debug assertion. -/
def reportEntries (curr : ThreadId) (currVc : VectorClock) (table : OrdMap ThreadId InstId)
    (report : ThreadId → InstId → RaceReport) : List (ThreadId × ℕ) → Option (List DbCall)
  | [] => some []
  | (thdId, clk) :: rest =>
    if curr ≠ thdId ∧ currVc.getClock thdId < clk then do
      let inst ← table[thdId]?
      let calls ← reportEntries curr currVc table report rest
      return .createRace (report thdId inst) :: calls
    else reportEntries curr currVc table report rest

/-- `if (!vc.HappensBefore(curr_vc))` with its body: whether the unit becomes
racy, and the reports. -/
def checkAccesses (curr : ThreadId) (currVc vc : VectorClock) (table : OrdMap ThreadId InstId)
    (report : ThreadId → InstId → RaceReport) : Option (Bool × List DbCall) :=
  if vc.happensBefore currVc then some (false, [])
  else do
    let calls ← reportEntries curr currVc table report vc.map.toList
    return (true, calls)

/-- `if (track_racy_inst_) race_inst_set.insert(inst)`, in every detector. -/
def trackInst (track : Bool) (set : Std.ExtTreeSet InstId) (inst : InstId) : Std.ExtTreeSet InstId :=
  if track then set.insert inst else set

/-- `ProcessFree` of every detector that keeps a set of instructions. -/
def releaseInsts (track racy : Bool) (set : Std.ExtTreeSet InstId) : List DbCall :=
  if track && racy then set.toList.map .setRacyInst else []

namespace Djit
variable {G : Type}

def processRead (b : DetectorBase G) (curr : ThreadId) (iaddr : Address) (djitMeta : DjitMeta)
    (inst : InstId) : Option (DjitMeta × List DbCall) := do
  let currVc ← b.currVcMap[curr]?
  let (raced, calls) ← checkAccesses curr currVc djitMeta.writerVc djitMeta.writerInstTable
    (fun thdId writerInst => ⟨iaddr, thdId, writerInst, .write, curr, inst, .read⟩)
  return ({ djitMeta with
      racy := djitMeta.racy || raced
      readerVc := djitMeta.readerVc.setClock curr (currVc.getClock curr)
      readerInstTable := djitMeta.readerInstTable.insert curr inst
      raceInstSet := trackInst b.trackRacyInst djitMeta.raceInstSet inst }, calls)

def processWrite (b : DetectorBase G) (curr : ThreadId) (iaddr : Address) (djitMeta : DjitMeta)
    (inst : InstId) : Option (DjitMeta × List DbCall) := do
  let currVc ← b.currVcMap[curr]?
  let (racedWriters, calls) ← checkAccesses curr currVc djitMeta.writerVc djitMeta.writerInstTable
    (fun thdId writerInst => ⟨iaddr, thdId, writerInst, .write, curr, inst, .write⟩)
  let (racedReaders, moreCalls) ← checkAccesses curr currVc djitMeta.readerVc djitMeta.readerInstTable
    (fun thdId readerInst => ⟨iaddr, thdId, readerInst, .read, curr, inst, .write⟩)
  return ({ djitMeta with
      racy := djitMeta.racy || racedWriters || racedReaders
      writerVc := djitMeta.writerVc.setClock curr (currVc.getClock curr)
      writerInstTable := djitMeta.writerInstTable.insert curr inst
      raceInstSet := trackInst b.trackRacyInst djitMeta.raceInstSet inst }, calls ++ moreCalls)

def processFree (b : DetectorBase G) (djitMeta : DjitMeta) : List DbCall :=
  releaseInsts b.trackRacyInst djitMeta.racy djitMeta.raceInstSet

section
variable {b : DetectorBase G} {curr : ThreadId} {iaddr : Address} {m : DjitMeta} {inst : InstId}
  {currVc : VectorClock} {raced racedReaders : Bool} {calls moreCalls : List DbCall}

theorem processRead_eq (found : b.currVcMap[curr]? = some currVc)
    (checked : checkAccesses curr currVc m.writerVc m.writerInstTable
      (fun thdId writerInst => ⟨iaddr, thdId, writerInst, .write, curr, inst, .read⟩) = some (raced, calls)) :
    processRead b curr iaddr m inst = some ({ m with
      racy := m.racy || raced
      readerVc := m.readerVc.setClock curr (currVc.getClock curr)
      readerInstTable := m.readerInstTable.insert curr inst
      raceInstSet := trackInst b.trackRacyInst m.raceInstSet inst }, calls) := by
  simp [processRead, found, checked]

theorem processWrite_eq (found : b.currVcMap[curr]? = some currVc)
    (checked : checkAccesses curr currVc m.writerVc m.writerInstTable
      (fun thdId writerInst => ⟨iaddr, thdId, writerInst, .write, curr, inst, .write⟩) = some (raced, calls))
    (checkedReaders : checkAccesses curr currVc m.readerVc m.readerInstTable
      (fun thdId readerInst => ⟨iaddr, thdId, readerInst, .read, curr, inst, .write⟩) =
        some (racedReaders, moreCalls)) :
    processWrite b curr iaddr m inst = some ({ m with
      racy := m.racy || raced || racedReaders
      writerVc := m.writerVc.setClock curr (currVc.getClock curr)
      writerInstTable := m.writerInstTable.insert curr inst
      raceInstSet := trackInst b.trackRacyInst m.raceInstSet inst }, calls ++ moreCalls) := by
  simp [processWrite, found, checked, checkedReaders]

end
end Djit

/-- `race::Djit`. -/
def djit : Algorithm Unit DjitMeta where
  newMeta := {}
  processLock := DetectorBase.processLock
  processUnlock := DetectorBase.processUnlock
  afterPthreadJoin := DetectorBase.afterPthreadJoin
  beforeCall own _ _ := own
  gate _ := true
  processRead := Djit.processRead
  processWrite := Djit.processWrite
  processFree := Djit.processFree

section Check
variable {curr : ThreadId} {currVc vc : VectorClock} {table : OrdMap ThreadId InstId}

/-- Threads whose entry the current thread has not seen. -/
def Unseen (curr : ThreadId) (currVc vc : VectorClock) (t : ThreadId) : Prop :=
  t ≠ curr ∧ currVc.getClock t < vc.getClock t

theorem reportEntries_spec (curr : ThreadId) (currVc : VectorClock) (table : OrdMap ThreadId InstId)
    (report : ThreadId → InstId → RaceReport) (entries : List (ThreadId × ℕ))
    (named : ∀ e ∈ entries, ∃ inst, table[e.1]? = some inst) :
    ∃ calls, reportEntries curr currVc table report entries = some calls ∧
      ∀ call, call ∈ calls ↔ ∃ t clk inst, (t, clk) ∈ entries ∧ t ≠ curr ∧ currVc.getClock t < clk ∧
        table[t]? = some inst ∧ call = .createRace (report t inst) := by
  induction entries with
  | nil => exact ⟨[], rfl, by simp⟩
  | cons entry rest ih =>
    obtain ⟨thdId, clk⟩ := entry
    obtain ⟨⟨inst, found⟩, named⟩ := List.forall_mem_cons.mp named
    obtain ⟨calls, ran, spec⟩ := ih named
    by_cases unseen : curr ≠ thdId ∧ currVc.getClock thdId < clk
    · refine ⟨.createRace (report thdId inst) :: calls, ?_, fun call => ?_⟩
      · simp only at found
        simp [reportEntries, unseen, found, ran]
      · rw [List.mem_cons, spec]
        constructor
        · rintro (rfl | ⟨t, c, i, member, rest⟩)
          · exact ⟨thdId, clk, inst, by simp, unseen.1.symm, unseen.2, found, rfl⟩
          · exact ⟨t, c, i, by simp [member], rest⟩
        · rintro ⟨t, c, i, member, other, above, foundInst, rfl⟩
          rcases List.mem_cons.mp member with same | member
          · cases same
            cases found.symm.trans foundInst
            exact Or.inl rfl
          · exact Or.inr ⟨t, c, i, member, other, above, foundInst, rfl⟩
    · refine ⟨calls, ?_, fun call => ?_⟩
      · simp only [reportEntries, if_neg unseen, ran]
      · rw [spec]
        constructor
        · rintro ⟨t, c, i, member, rest⟩
          exact ⟨t, c, i, by simp [member], rest⟩
        · rintro ⟨t, c, i, member, other, above, rest⟩
          rcases List.mem_cons.mp member with same | member
          · cases same
            exact absurd ⟨other.symm, above⟩ unseen
          · exact ⟨t, c, i, member, other, above, rest⟩

/-- The check reports exactly the unseen entries, each with the instruction that
the table has for it, and marks the unit exactly when there is one. -/
theorem checkAccesses_spec (report : ThreadId → InstId → RaceReport)
    (named : ∀ (t : ThreadId) (clk : ℕ), vc.map[t]? = some clk → ∃ inst, table[t]? = some inst)
    (positive : ∀ (t : ThreadId) (clk : ℕ), vc.map[t]? = some clk → 0 < clk)
    (own : vc.getClock curr ≤ currVc.getClock curr) :
    ∃ raced calls, checkAccesses curr currVc vc table report = some (raced, calls) ∧
      (raced = true ↔ ∃ t, Unseen curr currVc vc t) ∧
      ∀ call, call ∈ calls ↔ ∃ t inst, Unseen curr currVc vc t ∧ table[t]? = some inst ∧
        call = .createRace (report t inst) := by
  have entry : ∀ t clk, vc.map[t]? = some clk → vc.getClock t = clk := by
    intro t clk found
    simp [VectorClock.getClock, found]
  have stored : ∀ t, Unseen curr currVc vc t → vc.map[t]? = some (vc.getClock t) := by
    intro t unseen
    cases found : vc.map[t]? with
    | none =>
      have above := unseen.2
      simp [VectorClock.getClock, found] at above
    | some clk => rw [entry t clk found]
  have ordered_iff := VectorClock.happensBefore_iff vc currVc positive
  by_cases ordered : vc.happensBefore currVc = true
  · have none : ∀ t, ¬ Unseen curr currVc vc t := fun t unseen =>
      absurd (ordered_iff.mp ordered t) (Nat.not_le.mpr unseen.2)
    exact ⟨false, [], by simp [checkAccesses, ordered], by simp [none], by simp [none]⟩
  · obtain ⟨calls, ran, spec⟩ := reportEntries_spec curr currVc table report vc.map.toList
      (fun e member => named e.1 e.2 (VectorClock.mem_toList.mp member))
    refine ⟨true, calls, by simp [checkAccesses, ordered, ran], ?_, fun call => ?_⟩
    · simp only [true_iff]
      rw [ordered_iff, not_forall] at ordered
      obtain ⟨t, above⟩ := ordered
      refine ⟨t, fun same => above (same ▸ own), Nat.not_le.mp above⟩
    · rw [spec]
      constructor
      · rintro ⟨t, clk, inst, member, other, above, found, rfl⟩
        have clock := entry t clk (VectorClock.mem_toList.mp member)
        exact ⟨t, inst, ⟨other, clock ▸ above⟩, found, rfl⟩
      · rintro ⟨t, inst, unseen, found, rfl⟩
        exact ⟨t, _, inst, VectorClock.mem_toList.mpr (stored t unseen), unseen.1, unseen.2, found, rfl⟩

end Check
end Maple.Race
