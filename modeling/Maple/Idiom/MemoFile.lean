import Maple.Idiom.MemoRuns

/-! `Load` and `Save` of `idiom/memo.cc`. The iroot database is shared, so that an iroot
is its id there and `FindiRoot` succeeds. -/
namespace Maple.Idiom

/-- `MemoProto` -/
structure MemoProto where
  irootInfo : List IRootInfo := []
  exposed : List IRoot := []
  failed : List IRoot := []
  predicted : List IRoot := []
  shadowExposed : List IRoot := []
  candidate : List (IRoot × ℕ) := []

namespace InfoTable

/-- A record of the file. `Save` never writes two records of one iroot. -/
def loadInfo (t : InfoTable) (info : IRootInfo) : Option InfoTable :=
  if missing : t.findiRootInfo info.iroot = none then
    some ((t.createiRootInfo info.iroot missing).modify t.infos.length
      (fun created => { info with iroot := created.iroot }) fun _ => rfl)
  else none

end InfoTable

namespace Memo

/-- `(*it)->iroot()->id()` -/
def saveInfo (m : Memo) (i : Info) : Option IRoot := m.infos[i]?.map IRootInfo.iroot

def saveCandidate (m : Memo) (entry : Info × ℕ) : Option (IRoot × ℕ) := do
  let iroot ← m.saveInfo entry.1
  return (iroot, entry.2)

def save (m : Memo) : Option MemoProto := do
  let exposed ← m.exposedSet.toList.mapM m.saveInfo
  let failed ← m.failedSet.toList.mapM m.saveInfo
  let predicted ← m.predictedSet.toList.mapM m.saveInfo
  let shadowExposed ← m.shadowExposedSet.toList.mapM m.saveInfo
  let candidate ← m.candidateMap.toList.mapM m.saveCandidate
  return { irootInfo := m.infos, exposed, failed, predicted, shadowExposed, candidate }

/-- The loops of `Load` over the ids of the file. -/
def loadInto (t : InfoTable) (set : InfoSet) (iroot : IRoot) : Option InfoSet := do
  let i ← t.findiRootInfo iroot
  return set.insert i

def loadSet (t : InfoTable) (ids : List IRoot) : Option InfoSet := ids.foldlM (loadInto t) ∅

def loadCandidate (t : InfoTable) (map : OrdMap Info ℕ) (entry : IRoot × ℕ) : Option (OrdMap Info ℕ) := do
  let i ← t.findiRootInfo entry.1
  return map.insert i entry.2

def loadCandidates (t : InfoTable) (candidates : List (IRoot × ℕ)) : Option (OrdMap Info ℕ) :=
  candidates.foldlM (loadCandidate t) ∅

def load (proto : MemoProto) : Option Memo := do
  let t ← proto.irootInfo.foldlM InfoTable.loadInfo InfoTable.empty
  let exposedSet ← loadSet t proto.exposed
  let failedSet ← loadSet t proto.failed
  let predictedSet ← loadSet t proto.predicted
  let shadowExposedSet ← loadSet t proto.shadowExposed
  let candidateMap ← loadCandidates t proto.candidate
  return { toInfoTable := t, exposedSet, failedSet, predictedSet, shadowExposedSet, candidateMap }

end Memo

namespace InfoTable
variable {t u : InfoTable}

/-- The records determine the map. -/
theorem ext_infos (same : t.infos = u.infos) : t = u := by
  obtain ⟨infos, map, indexed⟩ := t
  obtain ⟨infos', map', indexed'⟩ := u
  subst same
  have maps : map = map' := by
    refine Std.ExtTreeMap.ext_getElem? fun r => Option.ext fun i => ?_
    rw [indexed r i, indexed' r i]
  subst maps
  rfl

/-- Records of different iroots go in one after the other. -/
theorem loadInfos_spec (infos : List IRootInfo) (fresh : ∀ info ∈ infos, t.findiRootInfo info.iroot = none)
    (distinct : (infos.map IRootInfo.iroot).Nodup) :
    ∃ u, infos.foldlM loadInfo t = some u ∧ u.infos = t.infos ++ infos := by
  induction infos generalizing t with
  | nil => exact ⟨t, rfl, (List.append_nil _).symm⟩
  | cons info rest ih =>
    obtain ⟨missing, fresh⟩ := List.forall_mem_cons.mp fresh
    obtain ⟨apart, distinct⟩ := List.nodup_cons.mp distinct
    let added := (t.createiRootInfo info.iroot missing).modify t.infos.length
      (fun created => { info with iroot := created.iroot }) fun _ => rfl
    have grown : added.infos = t.infos ++ [info] := by
      refine List.ext_getElem? fun j => ?_
      rcases Nat.lt_trichotomy j t.infos.length with before | rfl | after
      · simp [added, modify, createiRootInfo, Nat.ne_of_gt before, List.getElem?_append_left before]
      · simp [added, modify, createiRootInfo]
      · have beyond : j - t.infos.length ≠ 0 := Nat.sub_ne_zero_of_lt after
        simp [added, modify, createiRootInfo, Nat.ne_of_lt after, List.getElem?_append_right (Nat.le_of_lt after),
          beyond]
    have stays : ∀ other ∈ rest, added.findiRootInfo other.iroot = none := by
      intro other member
      have differ : info.iroot ≠ other.iroot := by
        intro same
        exact apart (same ▸ List.mem_map_of_mem member)
      have find : added.findiRootInfo other.iroot = t.findiRootInfo other.iroot := by
        simp [added, modify, createiRootInfo, findiRootInfo, differ]
      rw [find]
      exact fresh other member
    obtain ⟨u, ran, all⟩ := ih stays distinct
    refine ⟨u, ?_, by rw [all, grown, List.append_assoc, List.singleton_append]⟩
    rw [List.foldlM_cons, loadInfo, dif_pos missing]
    exact ran

theorem nodup_iroots (t : InfoTable) : (t.infos.map IRootInfo.iroot).Nodup := by
  rw [List.nodup_iff_getElem?_ne_getElem?]
  intro i j before bound same
  rw [List.getElem?_map, List.getElem?_map] at same
  rw [List.length_map] at bound
  obtain ⟨info, listed⟩ : ∃ info, t.infos[j]? = some info := ⟨_, List.getElem?_eq_getElem bound⟩
  rw [listed, Option.map_some] at same
  have first := (t.indexed info.iroot i).mpr same
  have second := (t.indexed info.iroot j).mpr (by rw [listed, Option.map_some])
  exact absurd (Option.some.inj (first.symm.trans second)) (Nat.ne_of_lt before)

/-- The records of a memo are read back as they are. -/
theorem loadInfos_self (t : InfoTable) : t.infos.foldlM loadInfo empty = some t := by
  obtain ⟨u, ran, same⟩ := loadInfos_spec (t := empty) t.infos
    (fun info _ => by simp [empty, findiRootInfo]) t.nodup_iroots
  rw [ran, ext_infos (same.trans (List.nil_append _))]

end InfoTable

namespace Memo
open InfoTable
variable {m : Memo} {i : Info}

theorem saveInfo_spec (bound : i < m.infos.length) : ∃ r, m.saveInfo i = some r ∧ m.findiRootInfo r = some i := by
  have listed := List.getElem?_eq_getElem bound
  exact ⟨(m.infos[i]).iroot, by rw [saveInfo, listed, Option.map_some], find_iroot listed⟩

theorem saveInfos_spec (pointers : List Info) (valid : ∀ i ∈ pointers, i < m.infos.length) :
    ∃ ids, pointers.mapM m.saveInfo = some ids ∧
      ∀ set : InfoSet, ∃ read, ids.foldlM (loadInto m.toInfoTable) set = some read ∧
        ∀ i, i ∈ read ↔ i ∈ set ∨ i ∈ pointers := by
  induction pointers with
  | nil => exact ⟨[], rfl, fun set => ⟨set, rfl, fun i => by simp⟩⟩
  | cons first rest ih =>
    obtain ⟨bound, valid⟩ := List.forall_mem_cons.mp valid
    obtain ⟨r, saved, found⟩ := saveInfo_spec bound
    obtain ⟨ids, ran, back⟩ := ih valid
    refine ⟨r :: ids, by simp [saved, ran], fun set => ?_⟩
    obtain ⟨read, ran', members⟩ := back (set.insert first)
    refine ⟨read, by simpa [loadInto, found] using ran', fun i => ?_⟩
    rw [members i, Std.ExtTreeSet.mem_insert, Std.compare_eq_iff_eq, List.mem_cons]
    constructor
    · rintro ((rfl | old) | later)
      · exact Or.inr (Or.inl rfl)
      · exact Or.inl old
      · exact Or.inr (Or.inr later)
    · rintro (old | rfl | later)
      · exact Or.inl (Or.inr old)
      · exact Or.inl (Or.inl rfl)
      · exact Or.inr later

/-- A set of pointers is read back as it is. -/
theorem loadSet_save (set : InfoSet) (valid : ∀ i ∈ set, i < m.infos.length) :
    ∃ ids, set.toList.mapM m.saveInfo = some ids ∧ loadSet m.toInfoTable ids = some set := by
  obtain ⟨ids, saved, back⟩ := saveInfos_spec set.toList fun i member => valid i (Std.ExtTreeSet.mem_toList.mp member)
  obtain ⟨read, ran, members⟩ := back ∅
  refine ⟨ids, saved, ran.trans (congrArg some (Std.ExtTreeSet.ext_mem fun i => ?_))⟩
  rw [members i, Std.ExtTreeSet.mem_toList]
  simp

theorem saveCandidates_spec (entries : List (Info × ℕ)) (valid : ∀ e ∈ entries, e.1 < m.infos.length)
    (distinct : (entries.map Prod.fst).Nodup) :
    ∃ saved, entries.mapM m.saveCandidate = some saved ∧
      ∀ map : OrdMap Info ℕ, ∃ read, saved.foldlM (loadCandidate m.toInfoTable) map = some read ∧
        ∀ (i : Info) (n : ℕ), read[i]? = some n ↔ (i, n) ∈ entries ∨ i ∉ entries.map Prod.fst ∧ map[i]? = some n := by
  induction entries with
  | nil => exact ⟨[], rfl, fun map => ⟨map, rfl, fun i n => by simp⟩⟩
  | cons first rest ih =>
    obtain ⟨bound, valid⟩ := List.forall_mem_cons.mp valid
    obtain ⟨apart, distinct⟩ := List.nodup_cons.mp distinct
    obtain ⟨r, stored, found⟩ := saveInfo_spec bound
    obtain ⟨saved, ran, back⟩ := ih valid distinct
    refine ⟨(r, first.2) :: saved, by simp [saveCandidate, stored, ran], fun map => ?_⟩
    obtain ⟨read, ran', entries⟩ := back (map.insert first.1 first.2)
    refine ⟨read, by simpa [loadCandidate, found] using ran', fun i n => ?_⟩
    rw [entries i n, getElem?_insert_thread, List.mem_cons, List.map_cons, List.mem_cons, not_or]
    by_cases same : first.1 = i
    · subst same
      rw [if_pos rfl]
      constructor
      · rintro (later | ⟨_, here⟩)
        · exact Or.inl (Or.inr later)
        · exact Or.inl (Or.inl (Prod.ext rfl (Option.some.inj here).symm))
      · rintro ((here | later) | ⟨⟨other, _⟩, _⟩)
        · exact Or.inr ⟨apart, congrArg some (congrArg Prod.snd here).symm⟩
        · exact Or.inl later
        · exact absurd rfl other
    · rw [if_neg same]
      constructor
      · rintro (later | ⟨absent, old⟩)
        · exact Or.inl (Or.inr later)
        · exact Or.inr ⟨⟨Ne.symm same, absent⟩, old⟩
      · rintro ((here | later) | ⟨⟨_, absent⟩, old⟩)
        · exact absurd (congrArg Prod.fst here).symm same
        · exact Or.inl later
        · exact Or.inr ⟨absent, old⟩

theorem loadCandidates_save (map : OrdMap Info ℕ) (valid : ∀ i ∈ map, i < m.infos.length) :
    ∃ saved, map.toList.mapM m.saveCandidate = some saved ∧
      loadCandidates m.toInfoTable saved = some map := by
  obtain ⟨saved, ran, back⟩ := saveCandidates_spec map.toList (fun e member => by
      have found := Std.ExtTreeMap.mem_toList_iff_getElem?_eq_some.mp member
      exact valid e.1 (Std.ExtTreeMap.mem_iff_isSome_getElem?.mpr (by simp [found])))
    (by rw [Std.ExtTreeMap.map_fst_toList_eq_keys]; exact Std.ExtTreeMap.nodup_keys)
  obtain ⟨read, ran', entries⟩ := back ∅
  refine ⟨saved, ran, ran'.trans (congrArg some (Std.ExtTreeMap.ext_getElem? fun i => Option.ext fun n => ?_))⟩
  rw [entries i n, Std.ExtTreeMap.mem_toList_iff_getElem?_eq_some]
  simp

/-- What is saved is loaded again. -/
theorem Wf.load_save (wf : m.Wf) : ∃ proto, m.save = some proto ∧ load proto = some m := by
  obtain ⟨exposed, saved₁, loaded₁⟩ := loadSet_save m.exposedSet wf.exposed
  obtain ⟨failed, saved₂, loaded₂⟩ := loadSet_save m.failedSet wf.failed
  obtain ⟨predicted, saved₃, loaded₃⟩ := loadSet_save m.predictedSet wf.predicted
  obtain ⟨shadowExposed, saved₄, loaded₄⟩ := loadSet_save m.shadowExposedSet wf.shadowExposed
  obtain ⟨candidate, saved₅, loaded₅⟩ := loadCandidates_save m.candidateMap wf.candidate_lt
  refine ⟨⟨m.infos, exposed, failed, predicted, shadowExposed, candidate⟩, ?_, ?_⟩
  · simp [save, saved₁, saved₂, saved₃, saved₄, saved₅]
  · simp [load, loadInfos_self, loaded₁, loaded₂, loaded₃, loaded₄, loaded₅]

end Memo
end Maple.Idiom
