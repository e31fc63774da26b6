import Maple.Core.BasicTypes
import Maple.Lib.Runs

/-! The memoization database of `idiom/memo.cc`. The collections of a memo hold pointers
to its own info objects; what they say about an iroot is reached through the info map. -/
namespace Maple.Idiom

/-- Identity of an `iRoot *` of the database that memos share. -/
abbrev IRoot := ℕ

/-- Counts of test runs are a `uint32` that is taken not to wrap. -/
structure IRootInfo where
  iroot : IRoot
  totalTestRuns : ℕ := 0
  /-- The optional field `async` of the record. -/
  asyncField : Option Bool := none

def IRootInfo.async (info : IRootInfo) : Bool := info.asyncField.getD false

/-- An `iRootInfo *` is the index of its record in `proto_.iroot_info`. -/
abbrev Info := ℕ

abbrev InfoSet := Std.ExtTreeSet Info

/-- The records and `iroot_info_map_`: every record belongs to one iroot and is found under it. -/
structure InfoTable where
  infos : List IRootInfo
  irootInfoMap : OrdMap IRoot Info
  indexed : ∀ (r : IRoot) (i : Info), irootInfoMap[r]? = some i ↔ infos[i]?.map IRootInfo.iroot = some r

namespace InfoTable

def empty : InfoTable := ⟨[], ∅, by simp⟩

def findiRootInfo (t : InfoTable) (r : IRoot) : Option Info := t.irootInfoMap[r]?

def createiRootInfo (t : InfoTable) (r : IRoot) (missing : t.findiRootInfo r = none) : InfoTable where
  infos := t.infos ++ [{ iroot := r }]
  irootInfoMap := t.irootInfoMap.insert r t.infos.length
  indexed r' i := by
    rw [getElem?_insert_thread, List.getElem?_append]
    by_cases same : r = r'
    · subst same
      rw [if_pos rfl]
      split
      · next old =>
        have absent : ¬ t.infos[i]?.map IRootInfo.iroot = some r := by
          rw [← t.indexed, ← findiRootInfo, missing]
          exact nofun
        simp [absent, Nat.ne_of_gt old]
      · next new =>
        rw [Option.some.injEq]
        constructor
        · rintro rfl
          simp
        · intro found
          obtain ⟨info, listed, -⟩ := Option.map_eq_some_iff.mp found
          obtain ⟨bound, -⟩ := List.getElem?_eq_some_iff.mp listed
          exact Nat.le_antisymm (Nat.le_of_not_lt new) (Nat.le_of_sub_eq_zero (Nat.lt_one_iff.mp bound))
    · rw [if_neg same, t.indexed]
      split
      · rfl
      · next new =>
        have beyond : t.infos[i]? = none := List.getElem?_eq_none (Nat.le_of_not_lt new)
        have other : ¬ ([{ iroot := r }] : List IRootInfo)[i - t.infos.length]?.map IRootInfo.iroot = some r' := by
          intro found
          obtain ⟨info, listed, equal⟩ := Option.map_eq_some_iff.mp found
          cases List.mem_singleton.mp (List.mem_of_getElem? listed)
          exact same equal
        simp [beyond, other]

def getiRootInfo (t : InfoTable) (r : IRoot) : InfoTable × Info :=
  match found : t.findiRootInfo r with
  | some i => (t, i)
  | none => (t.createiRootInfo r found, t.infos.length)

/-- The setters of a record leave its iroot alone. -/
def modify (t : InfoTable) (i : Info) (f : IRootInfo → IRootInfo) (kept : ∀ info, (f info).iroot = info.iroot) :
    InfoTable where
  infos := t.infos.modify i f
  irootInfoMap := t.irootInfoMap
  indexed r j := by
    rw [t.indexed, List.getElem?_modify]
    cases t.infos[j]? with
    | none => rfl
    | some info => split <;> simp [kept]

def setTotalTestRuns (t : InfoTable) (i : Info) (n : ℕ) : InfoTable :=
  t.modify i (fun info => { info with totalTestRuns := n }) fun _ => rfl

def setAsync (t : InfoTable) (i : Info) (async : Bool) : InfoTable :=
  t.modify i (fun info => { info with asyncField := some async }) fun _ => rfl

end InfoTable

structure Memo extends InfoTable where
  exposedSet : InfoSet := ∅
  failedSet : InfoSet := ∅
  predictedSet : InfoSet := ∅
  shadowExposedSet : InfoSet := ∅
  candidateMap : OrdMap Info ℕ := ∅

namespace Memo

/-- `DEFAULT_FAILED_LIMIT` -/
def failedLimit : ℕ := 2

/-- `DEFAULT_TOTAL_FAILED_LIMIT` -/
def totalFailedLimit : ℕ := 6

def empty : Memo := { InfoTable.empty with }

/-- What `TestSuccess` and `TestFail` share: the memo, the info object and its test runs. -/
def countTest (m : Memo) (iroot : IRoot) : Option (Memo × Info × ℕ) := do
  let (t, i) := m.getiRootInfo iroot
  let runs ← m.candidateMap[i]?
  let info ← t.infos[i]?
  let total := info.totalTestRuns + 1
  return ({ m with toInfoTable := t.setTotalTestRuns i total, candidateMap := m.candidateMap.insert i (runs + 1) },
    i, total)

def testSuccess (m : Memo) (iroot : IRoot) : Option Memo := do
  let (m, i, _) ← m.countTest iroot
  return { m with exposedSet := m.exposedSet.insert i }

def testFail (m : Memo) (iroot : IRoot) : Option Memo := do
  let (m, i, total) ← m.countTest iroot
  return if totalFailedLimit ≤ total then { m with failedSet := m.failedSet.insert i } else m

def predicted (m : Memo) (iroot : IRoot) : Option Memo := do
  let (t, i) := m.getiRootInfo iroot
  if m.predictedSet.contains i then return { m with toInfoTable := t }
  debugAssert (m.candidateMap[i]? = none)
  return { m with
    toInfoTable := t
    predictedSet := m.predictedSet.insert i
    candidateMap := m.candidateMap.insert i 0 }

def observed (m : Memo) (iroot : IRoot) (shadow : Bool) : Memo :=
  let (t, i) := m.getiRootInfo iroot
  if shadow then { m with toInfoTable := t, shadowExposedSet := m.shadowExposedSet.insert i }
  else { m with toInfoTable := t, exposedSet := m.exposedSet.insert i }

def setAsync (m : Memo) (iroot : IRoot) : Memo :=
  let (t, i) := m.getiRootInfo iroot
  { m with toInfoTable := t.setAsync i true }

/-- The loop over `iroot_info_map_` of the other memo. -/
def mergeInfo (other : InfoTable) (t : InfoTable) (entry : IRoot × Info) : Option InfoTable := do
  let otherInfo ← other.infos[entry.2]?
  match t.findiRootInfo entry.1 with
  | none =>
    let (t, i) := t.getiRootInfo entry.1
    let t := t.setTotalTestRuns i otherInfo.totalTestRuns
    match otherInfo.asyncField with
    | none => return t
    | some async => return t.setAsync i async
  | some i =>
    let info ← t.infos[i]?
    let t := if info.totalTestRuns < otherInfo.totalTestRuns then t.setTotalTestRuns i otherInfo.totalTestRuns else t
    return if otherInfo.async then t.setAsync i true else t

/-- The loops over the sets of the other memo. -/
def mergeInto (other t : InfoTable) (set : InfoSet) (otherInfo : Info) : Option InfoSet := do
  let info ← other.infos[otherInfo]?
  let i ← t.findiRootInfo info.iroot
  return set.insert i

def mergeSet (other t : InfoTable) (set otherSet : InfoSet) : Option InfoSet :=
  otherSet.toList.foldlM (mergeInto other t) set

/-- The loop over `candidate_map_` of the other memo. -/
def mergeCandidate (other t : InfoTable) (map : OrdMap Info ℕ) (entry : Info × ℕ) : Option (OrdMap Info ℕ) := do
  let info ← other.infos[entry.1]?
  let i ← t.findiRootInfo info.iroot
  match map[i]? with
  | none => return map.insert i entry.2
  | some runs => return if runs < entry.2 then map.insert i entry.2 else map

def merge (m other : Memo) : Option Memo := do
  let t ← other.irootInfoMap.toList.foldlM (mergeInfo other.toInfoTable) m.toInfoTable
  let exposedSet ← mergeSet other.toInfoTable t m.exposedSet other.exposedSet
  let failedSet ← mergeSet other.toInfoTable t m.failedSet other.failedSet
  let predictedSet ← mergeSet other.toInfoTable t m.predictedSet other.predictedSet
  let shadowExposedSet ← mergeSet other.toInfoTable t m.shadowExposedSet other.shadowExposedSet
  let candidateMap ← other.candidateMap.toList.foldlM (mergeCandidate other.toInfoTable t) m.candidateMap
  return { toInfoTable := t, exposedSet, failedSet, predictedSet, shadowExposedSet, candidateMap }

def refineCandidate (m : Memo) (memoFailed : Bool) : Memo :=
  let map := m.candidateMap.filter fun _ runs => runs < failedLimit
  let map := m.exposedSet.toList.foldl (fun map i => map.erase i) map
  let map := if memoFailed then m.failedSet.toList.foldl (fun map i => map.erase i) map else map
  { m with candidateMap := map }

end Memo

end Maple.Idiom
