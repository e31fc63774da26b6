import Maple.Idiom.Memo

/-! Merging memos is a join. What a memo says of an iroot is an entry of a join
semilattice, and `Merge` is the join of the entries, whatever the info objects are. -/
namespace Maple.Idiom

namespace InfoTable
variable {t u : InfoTable} {r r' : IRoot} {i j : Info} {info : IRootInfo}

/-- The record of an iroot. -/
def record (t : InfoTable) (r : IRoot) : Option IRootInfo := (t.findiRootInfo r).bind (t.infos[·]?)

/-- Whether a set has the info object of an iroot. -/
def listed (t : InfoTable) (set : InfoSet) (r : IRoot) : Bool := (t.findiRootInfo r).any set.contains

/-- The test runs of a candidate. -/
def candidate (t : InfoTable) (map : OrdMap Info ℕ) (r : IRoot) : WithBot ℕ := (t.findiRootInfo r).bind (map[·]?)

theorem exists_record (found : t.findiRootInfo r = some i) :
    ∃ info, t.infos[i]? = some info ∧ info.iroot = r ∧ t.record r = some info := by
  obtain ⟨info, listed, same⟩ := Option.map_eq_some_iff.mp ((t.indexed r i).mp found)
  exact ⟨info, listed, same, by simp [record, found, listed]⟩

theorem find_lt (found : t.findiRootInfo r = some i) : i < t.infos.length := by
  obtain ⟨info, listed, -⟩ := exists_record found
  exact (List.getElem?_eq_some_iff.mp listed).1

theorem find_iroot (listed : t.infos[i]? = some info) : t.findiRootInfo info.iroot = some i :=
  (t.indexed info.iroot i).mpr (by rw [listed, Option.map_some])

theorem find_inj (found : t.findiRootInfo r = some i) (other : t.findiRootInfo r' = some i) : r = r' :=
  Option.some.inj (((t.indexed r i).mp found).symm.trans ((t.indexed r' i).mp other))

/-- Info objects stay, and those of other iroots are new. -/
structure Extends (t u : InfoTable) : Prop where
  find : ∀ r i, t.findiRootInfo r = some i → u.findiRootInfo r = some i
  fresh : ∀ r i, u.findiRootInfo r = some i → t.findiRootInfo r = some i ∨ t.infos.length ≤ i
  length : t.infos.length ≤ u.infos.length

theorem Extends.refl (t : InfoTable) : t.Extends t := ⟨fun _ _ => id, fun _ _ => Or.inl, Nat.le_refl _⟩

theorem Extends.trans {v : InfoTable} (first : t.Extends u) (second : u.Extends v) : t.Extends v where
  find r i found := second.find r i (first.find r i found)
  fresh r i found := by
    rcases second.fresh r i found with old | new
    · exact first.fresh r i old
    · exact Or.inr (Nat.le_trans first.length new)
  length := Nat.le_trans first.length second.length

/-- No valid pointer is the info object of an iroot that had none. -/
theorem Extends.find_eq (ext : t.Extends u) (bound : i < t.infos.length) :
    u.findiRootInfo r = some i ↔ t.findiRootInfo r = some i :=
  ⟨fun found => (ext.fresh r i found).resolve_right (Nat.not_le_of_lt bound), ext.find r i⟩

theorem Extends.listed (ext : t.Extends u) {set : InfoSet} (valid : ∀ i ∈ set, i < t.infos.length) (r : IRoot) :
    u.listed set r = t.listed set r := by
  rw [Bool.eq_iff_iff, InfoTable.listed, InfoTable.listed, Option.any_eq_true, Option.any_eq_true]
  apply exists_congr
  intro i
  constructor
  · rintro ⟨found, member⟩
    exact ⟨(ext.find_eq (valid i (Std.ExtTreeSet.mem_iff_contains.mpr member))).mp found, member⟩
  · rintro ⟨found, member⟩
    exact ⟨ext.find r i found, member⟩

theorem candidate_eq_some {map : OrdMap Info ℕ} {n : ℕ} :
    t.candidate map r = WithBot.some n ↔ ∃ i, t.findiRootInfo r = some i ∧ map[i]? = some n :=
  Option.bind_eq_some_iff

theorem Extends.candidate (ext : t.Extends u) {map : OrdMap Info ℕ} (valid : ∀ i ∈ map, i < t.infos.length)
    (r : IRoot) : u.candidate map r = t.candidate map r := by
  apply Option.ext
  intro n
  change u.candidate map r = WithBot.some n ↔ t.candidate map r = WithBot.some n
  rw [candidate_eq_some, candidate_eq_some]
  apply exists_congr
  intro i
  constructor
  · rintro ⟨found, member⟩
    exact ⟨(ext.find_eq (valid i (Std.ExtTreeMap.mem_iff_isSome_getElem?.mpr (by simp [member])))).mp found,
      member⟩
  · rintro ⟨found, member⟩
    exact ⟨ext.find r i found, member⟩

theorem listed_insert (found : t.findiRootInfo r = some i) (set : InfoSet) (r' : IRoot) :
    t.listed (set.insert i) r' = (t.listed set r' || decide (r = r')) := by
  rw [Bool.eq_iff_iff]
  by_cases same : r = r'
  · subst same
    simp [listed, found]
  · have apart : ∀ j, t.findiRootInfo r' = some j → i ≠ j := by
      rintro j other rfl
      exact same (find_inj found other)
    cases other : t.findiRootInfo r' with
    | none => simp [listed, other, same]
    | some j => simp [listed, other, same, apart j other]

theorem candidate_insert (found : t.findiRootInfo r = some i) (map : OrdMap Info ℕ) (n : ℕ) (r' : IRoot) :
    t.candidate (map.insert i n) r' = if r = r' then WithBot.some n else t.candidate map r' := by
  by_cases same : r = r'
  · subst same
    simp [candidate, found]
    rfl
  · rw [if_neg same]
    cases other : t.findiRootInfo r' with
    | none =>
      simp only [candidate, other]
      rfl
    | some j =>
      have apart : i ≠ j := by
        rintro rfl
        exact same (find_inj found other)
      simp only [candidate, other, Option.bind_some, getElem?_insert_thread, if_neg apart]
      rfl

theorem getiRootInfo_of_some (found : t.findiRootInfo r = some i) : t.getiRootInfo r = (t, i) := by
  unfold getiRootInfo
  split
  · next j other =>
    rw [found] at other
    cases other
    rfl
  · next missing => simp [found] at missing

theorem getiRootInfo_spec (t : InfoTable) (r : IRoot) : t.Extends (t.getiRootInfo r).1 ∧
    (t.getiRootInfo r).1.findiRootInfo r = some (t.getiRootInfo r).2 ∧
    ∀ r', (t.getiRootInfo r).1.record r' =
      if r = r' then some ((t.record r).getD { iroot := r }) else t.record r' := by
  cases found : t.findiRootInfo r with
  | some i =>
    obtain ⟨info, -, -, recorded⟩ := exists_record found
    rw [getiRootInfo_of_some found]
    refine ⟨Extends.refl t, found, fun r' => ?_⟩
    by_cases same : r = r'
    · subst same
      simp [recorded]
    · simp [same]
  | none =>
    have created : t.getiRootInfo r = (t.createiRootInfo r found, t.infos.length) := by
      unfold getiRootInfo
      split
      · next other => simp [found] at other
      · rfl
    have find : ∀ r', (t.createiRootInfo r found).findiRootInfo r' =
        if r = r' then some t.infos.length else t.findiRootInfo r' := by
      intro r'
      simp [createiRootInfo, findiRootInfo]
    rw [created]
    refine ⟨⟨fun r' i old => ?_, fun r' i new => ?_, ?_⟩, ?_, fun r' => ?_⟩
    · rw [find, if_neg (by rintro rfl; simp [found] at old), old]
    · rw [find] at new
      split at new
      · exact Or.inr (Nat.le_of_eq (Option.some.inj new))
      · exact Or.inl new
    · simp [createiRootInfo]
    · rw [find, if_pos rfl]
    · rw [record, find]
      by_cases same : r = r'
      · subst same
        simp [createiRootInfo, record, found]
      · rw [if_neg same, if_neg same, record]
        cases old : t.findiRootInfo r' with
        | none => rfl
        | some j => simp [createiRootInfo, List.getElem?_append_left (find_lt old)]

variable {f : IRootInfo → IRootInfo} {kept : ∀ info, (f info).iroot = info.iroot}

theorem Extends.modify : t.Extends (t.modify i f kept) :=
  ⟨fun _ _ => id, fun _ _ => Or.inl, by simp [InfoTable.modify]⟩

theorem record_modify (found : t.findiRootInfo r = some i) (r' : IRoot) :
    (t.modify i f kept).record r' = if r = r' then (t.record r').map f else t.record r' := by
  have find : (t.modify i f kept).findiRootInfo r' = t.findiRootInfo r' := rfl
  rw [record, find]
  by_cases same : r = r'
  · subst same
    rw [if_pos rfl, record, found]
    simp [InfoTable.modify]
  · rw [if_neg same, record]
    cases other : t.findiRootInfo r' with
    | none => rfl
    | some j =>
      have apart : i ≠ j := by
        rintro rfl
        exact same (find_inj found other)
      simp [InfoTable.modify, List.getElem?_modify, apart]

/-- Total test runs and async flag of an iroot. -/
def status (t : InfoTable) (r : IRoot) : ℕ × Bool :=
  ((t.record r).elim 0 IRootInfo.totalTestRuns, (t.record r).any IRootInfo.async)

theorem status_setTotalTestRuns (found : t.findiRootInfo r = some i) (n : ℕ) (r' : IRoot) :
    (t.setTotalTestRuns i n).status r' = if r = r' then (n, (t.status r).2) else t.status r' := by
  obtain ⟨info, -, -, recorded⟩ := exists_record found
  rw [status, setTotalTestRuns, record_modify found]
  by_cases same : r = r'
  · subst same
    simp [status, recorded, IRootInfo.async]
  · simp [same, status]

theorem status_setAsync (found : t.findiRootInfo r = some i) (async : Bool) (r' : IRoot) :
    (t.setAsync i async).status r' = if r = r' then ((t.status r).1, async) else t.status r' := by
  obtain ⟨info, -, -, recorded⟩ := exists_record found
  rw [status, setAsync, record_modify found]
  by_cases same : r = r'
  · subst same
    simp [status, recorded, IRootInfo.async]
  · simp [same, status]

/-- A new record says nothing yet. -/
theorem status_getiRootInfo (t : InfoTable) (r r' : IRoot) : (t.getiRootInfo r).1.status r' = t.status r' := by
  obtain ⟨-, -, records⟩ := getiRootInfo_spec t r
  rw [status, records]
  by_cases same : r = r'
  · subst same
    cases old : t.record r with
    | none => simp [status, old, IRootInfo.async]
    | some info => simp [status, old]
  · simp [same, status]

theorem status_of_missing (missing : t.findiRootInfo r = none) : t.status r = ⊥ := by
  simp only [status, record, missing]
  rfl

end InfoTable

namespace Memo
open InfoTable
variable {t u other : InfoTable} {r : IRoot} {i j : Info}

/-- One round of the first loop of `Merge`. -/
theorem mergeInfo_spec (t : InfoTable) (found : other.findiRootInfo r = some j) :
    ∃ u, mergeInfo other t (r, j) = some u ∧ t.Extends u ∧ (∃ i, u.findiRootInfo r = some i) ∧
      ∀ r', u.status r' = if r = r' then t.status r ⊔ other.status r else t.status r' := by
  obtain ⟨info, listed, -, recorded⟩ := exists_record found
  have status : other.status r = (info.totalTestRuns, info.async) := by simp [InfoTable.status, recorded]
  cases own : t.findiRootInfo r with
  | none =>
    obtain ⟨ext, new, -⟩ := getiRootInfo_spec t r
    have runs := status_setTotalTestRuns new info.totalTestRuns
    have fresh : t.status r = ⊥ := status_of_missing own
    simp only [status_getiRootInfo, fresh] at runs
    cases flag : info.asyncField with
    | none =>
      refine ⟨(t.getiRootInfo r).1.setTotalTestRuns (t.getiRootInfo r).2 info.totalTestRuns, ?_,
        ext.trans Extends.modify, ⟨_, new⟩, fun r' => ?_⟩
      · simp [mergeInfo, listed, own, flag]
      · rw [runs, fresh, bot_sup_eq, status, IRootInfo.async, flag]
        rfl
    | some async =>
      refine ⟨((t.getiRootInfo r).1.setTotalTestRuns (t.getiRootInfo r).2 info.totalTestRuns).setAsync
        (t.getiRootInfo r).2 async, ?_, (ext.trans Extends.modify).trans Extends.modify, ⟨_, new⟩, fun r' => ?_⟩
      · simp [mergeInfo, listed, own, flag]
      · have stored : ((t.getiRootInfo r).1.setTotalTestRuns (t.getiRootInfo r).2
            info.totalTestRuns).findiRootInfo r = some (t.getiRootInfo r).2 := new
        rw [status_setAsync stored, runs, runs, if_pos rfl, fresh, bot_sup_eq, status,
          IRootInfo.async, flag]
        by_cases same : r = r'
        · simp [same]
        · simp [same]
  | some i =>
    obtain ⟨info', listed', -, recorded'⟩ := exists_record own
    have status' : t.status r = (info'.totalTestRuns, info'.async) := by simp [InfoTable.status, recorded']
    let v := if info'.totalTestRuns < info.totalTestRuns then t.setTotalTestRuns i info.totalTestRuns else t
    have ext : t.Extends v := by
      simp only [v]
      split
      · exact Extends.modify
      · exact Extends.refl t
    have found : v.findiRootInfo r = some i := ext.find r i own
    have runs : ∀ r', v.status r' =
        if r = r' then (max info'.totalTestRuns info.totalTestRuns, info'.async) else t.status r' := by
      intro r'
      simp only [v]
      split
      · next less => rw [status_setTotalTestRuns own, status', Nat.max_eq_right (Nat.le_of_lt less)]
      · next less =>
        rw [Nat.max_eq_left (Nat.le_of_not_lt less), ← status']
        split
        · next same => rw [same]
        · rfl
    refine ⟨if info.async then v.setAsync i true else v, ?_, ?_, ?_, fun r' => ?_⟩
    · simp [mergeInfo, listed, own, listed', v]
    · split
      · exact ext.trans Extends.modify
      · exact ext
    · split
      · exact ⟨i, found⟩
      · exact ⟨i, found⟩
    · rw [status, status']
      split
      · next set =>
        rw [status_setAsync found, runs, runs, if_pos rfl, set]
        by_cases same : r = r'
        · simp [same]
        · simp [same]
      · next unset =>
        rw [runs, Bool.eq_false_iff.mpr unset]
        simp

/-- The info objects of one iroot in two memos. -/
def Matches (other u : InfoTable) (j i : Info) : Prop :=
  ∃ r, other.findiRootInfo r = some j ∧ u.findiRootInfo r = some i

/-- Every iroot of the other memo has an info object, as after the first loop. -/
def Covers (other u : InfoTable) : Prop :=
  ∀ r j, other.findiRootInfo r = some j → ∃ i, u.findiRootInfo r = some i

theorem mergeInfos_spec (other t : InfoTable) :
    ∃ u, other.irootInfoMap.toList.foldlM (mergeInfo other) t = some u ∧ t.Extends u ∧ Covers other u ∧
      ∀ r, u.status r = t.status r ⊔ other.status r := by
  have member : ∀ r j, (r, j) ∈ other.irootInfoMap.toList ↔ other.findiRootInfo r = some j :=
    fun _ _ => Std.ExtTreeMap.mem_toList_iff_getElem?_eq_some
  obtain ⟨u, ran, ext, covered, statuses⟩ := @Runs.foldlM_prefix _ _ (mergeInfo other) (fun done u => t.Extends u ∧
      (∀ e ∈ done, ∃ i, u.findiRootInfo e.1 = some i) ∧
      ∀ r, u.status r = if r ∈ done.map Prod.fst then t.status r ⊔ other.status r else t.status r)
    other.irootInfoMap.toList (by
      rintro done u ⟨r, j⟩ rest split ⟨ext, covered, statuses⟩
      have found := (member r j).mp (by simp [split])
      obtain ⟨v, ran, ext', new, statuses'⟩ := mergeInfo_spec u found
      refine ⟨v, ran, ext.trans ext', fun e listed => ?_, fun r' => ?_⟩
      · rcases List.mem_append.mp listed with old | last
        · obtain ⟨i, found⟩ := covered e old
          exact ⟨i, ext'.find _ i found⟩
        · cases List.mem_singleton.mp last
          exact new
      · rw [statuses', statuses, statuses]
        by_cases same : r = r'
        · subst same
          by_cases seen : r ∈ done.map Prod.fst
          · simp [seen]
          · simp [seen]
        · have unseen : r' ∈ (done ++ [(r, j)]).map Prod.fst ↔ r' ∈ done.map Prod.fst := by
            simp [Ne.symm same]
          rw [if_neg same]
          simp only [unseen]) t ⟨.refl t, by simp, by simp⟩
  refine ⟨u, ran, ext, fun r j found => covered (r, j) ((member r j).mpr found), fun r => ?_⟩
  rw [statuses]
  split
  · rfl
  · next absent =>
    have missing : other.findiRootInfo r = none := by
      cases found : other.findiRootInfo r with
      | none => rfl
      | some j => exact absurd (List.mem_map_of_mem (f := Prod.fst) ((member r j).mpr found)) absent
    rw [status_of_missing missing, sup_bot_eq]

/-- The pointers of a merged set. -/
theorem mergeSet_spec (covers : Covers other u) (set : InfoSet) {otherSet : InfoSet}
    (valid : ∀ j ∈ otherSet, j < other.infos.length) :
    ∃ merged, mergeSet other u set otherSet = some merged ∧
      ∀ i, i ∈ merged ↔ i ∈ set ∨ ∃ j ∈ otherSet, Matches other u j i := by
  obtain ⟨merged, ran, members⟩ := @Runs.foldlM_prefix _ _ (mergeInto other u) (fun done merged =>
      ∀ i, i ∈ merged ↔ i ∈ set ∨ ∃ j ∈ done, Matches other u j i)
    otherSet.toList (by
      intro done merged j rest split members
      have listed := List.getElem?_eq_getElem (valid j (Std.ExtTreeSet.mem_toList.mp (by simp [split])))
      have found := find_iroot listed
      obtain ⟨i, target⟩ := covers _ j found
      refine ⟨merged.insert i, by simp [mergeInto, listed, target], fun k => ?_⟩
      have last : Matches other u j k ↔ i = k := by
        constructor
        · rintro ⟨r, first, second⟩
          rw [find_inj first found, target] at second
          exact Option.some.inj second
        · rintro rfl
          exact ⟨_, found, target⟩
      simp only [Std.ExtTreeSet.mem_insert, compare_eq_iff_eq, members, List.mem_append,
        List.mem_singleton, or_and_right, exists_or, exists_eq_left, last]
      rw [or_comm, or_assoc]) set (by simp)
  refine ⟨merged, ran, fun i => ?_⟩
  simp only [members, Std.ExtTreeSet.mem_toList]

theorem listed_iff {t : InfoTable} {set : InfoSet} :
    t.listed set r = true ↔ ∃ i, t.findiRootInfo r = some i ∧ i ∈ set := by
  simp [listed, Option.any_eq_true]

/-- The iroots of a merged set. -/
theorem listed_merged (covers : Covers other u) {set merged otherSet : InfoSet}
    (members : ∀ i, i ∈ merged ↔ i ∈ set ∨ ∃ j ∈ otherSet, Matches other u j i) (r : IRoot) :
    u.listed merged r = (u.listed set r ⊔ other.listed otherSet r) := by
  rw [Bool.eq_iff_iff]
  change _ ↔ (u.listed set r || other.listed otherSet r) = true
  rw [Bool.or_eq_true, listed_iff, listed_iff, listed_iff]
  constructor
  · rintro ⟨i, found, member⟩
    rcases (members i).mp member with own | ⟨j, member, r', first, second⟩
    · exact Or.inl ⟨i, found, own⟩
    · exact Or.inr ⟨j, find_inj second found ▸ first, member⟩
  · rintro (⟨i, found, member⟩ | ⟨j, found, member⟩)
    · exact ⟨i, found, (members i).mpr (Or.inl member)⟩
    · obtain ⟨i, target⟩ := covers r j found
      exact ⟨i, target, (members i).mpr (Or.inr ⟨j, member, r, found, target⟩)⟩

/-- One round of the last loop of `Merge`. -/
theorem mergeCandidate_spec (map : OrdMap Info ℕ) (n : ℕ) (found : other.findiRootInfo r = some j)
    (target : u.findiRootInfo r = some i) :
    ∃ merged, mergeCandidate other u map (j, n) = some merged ∧ (∀ k, k ∈ merged ↔ i = k ∨ k ∈ map) ∧
      ∀ r', u.candidate merged r' = if r = r' then u.candidate map r ⊔ WithBot.some n else u.candidate map r' := by
  obtain ⟨info, listed, rfl, -⟩ := exists_record found
  cases own : map[i]? with
  | none =>
    have fresh : u.candidate map info.iroot = ⊥ := by
      rw [candidate, target]
      exact own
    refine ⟨map.insert i n, by simp [mergeCandidate, listed, target, own], by simp, fun r' => ?_⟩
    rw [candidate_insert target, fresh, bot_sup_eq]
  | some runs =>
    have old : u.candidate map info.iroot = WithBot.some runs := candidate_eq_some.mpr ⟨i, target, own⟩
    have here : i ∈ map := Std.ExtTreeMap.mem_iff_isSome_getElem?.mpr (by simp [own])
    refine ⟨if runs < n then map.insert i n else map, by simp [mergeCandidate, listed, target, own], ?_, ?_⟩
    · intro k
      split
      · simp
      · constructor
        · exact Or.inr
        · rintro (rfl | member)
          · exact here
          · exact member
    · intro r'
      rw [old]
      split
      · next less =>
        have later : WithBot.some runs ⊔ WithBot.some n = WithBot.some n :=
          sup_of_le_right (WithBot.coe_le_coe.mpr (Nat.le_of_lt less))
        rw [candidate_insert target, later]
      · next less =>
        have earlier : WithBot.some runs ⊔ WithBot.some n = WithBot.some runs :=
          sup_of_le_left (WithBot.coe_le_coe.mpr (Nat.le_of_not_lt less))
        rw [earlier]
        split
        · next same => rw [← same, old]
        · rfl

theorem mergeCandidates_spec (covers : Covers other u) (map : OrdMap Info ℕ) {otherMap : OrdMap Info ℕ}
    (valid : ∀ j ∈ otherMap, j < other.infos.length) :
    ∃ merged, otherMap.toList.foldlM (mergeCandidate other u) map = some merged ∧
      (∀ i, i ∈ merged ↔ i ∈ map ∨ ∃ j ∈ otherMap, Matches other u j i) ∧
      ∀ r, u.candidate merged r = u.candidate map r ⊔ other.candidate otherMap r := by
  have member : ∀ j n, (j, n) ∈ otherMap.toList ↔ otherMap[j]? = some n :=
    fun _ _ => Std.ExtTreeMap.mem_toList_iff_getElem?_eq_some
  obtain ⟨merged, ran, keys, values⟩ := @Runs.foldlM_prefix _ _ (mergeCandidate other u) (fun done merged =>
      (∀ i, i ∈ merged ↔ i ∈ map ∨ ∃ j ∈ done.map Prod.fst, Matches other u j i) ∧
      ∀ r, u.candidate merged r = if other.findiRootInfo r ∈ done.map (fun e => some e.1) then
        u.candidate map r ⊔ other.candidate otherMap r else u.candidate map r)
    otherMap.toList (by
      rintro done merged ⟨j, n⟩ rest split ⟨keys, values⟩
      have stored : otherMap[j]? = some n := (member j n).mp (by simp [split])
      have bound := valid j (Std.ExtTreeMap.mem_iff_isSome_getElem?.mpr (by simp [stored]))
      have found := find_iroot (List.getElem?_eq_getElem bound)
      obtain ⟨i, target⟩ := covers _ j found
      obtain ⟨next, ran, keys', values'⟩ := mergeCandidate_spec merged n found target
      refine ⟨next, ran, fun k => ?_, fun r => ?_⟩
      · have last : Matches other u j k ↔ i = k := by
          constructor
          · rintro ⟨r, first, second⟩
            rw [find_inj first found, target] at second
            exact Option.some.inj second
          · rintro rfl
            exact ⟨_, found, target⟩
        simp only [keys', keys, List.map_append, List.map_cons, List.map_nil, List.mem_append,
          List.mem_singleton, or_and_right, exists_or, exists_eq_left, last]
        rw [or_comm, or_assoc]
      · have value : other.candidate otherMap other.infos[j].iroot = WithBot.some n :=
          candidate_eq_some.mpr ⟨j, found, stored⟩
        rw [values', values, values]
        by_cases same : other.infos[j].iroot = r
        · subst same
          by_cases seen : other.findiRootInfo other.infos[j].iroot ∈ done.map (fun e => some e.1)
          · rw [if_pos rfl, if_pos seen, if_pos (by simp [seen]), value, sup_assoc, sup_idem]
          · rw [if_pos rfl, if_neg seen, if_pos (by simp [found]), value]
        · have unseen : other.findiRootInfo r ∈ (done ++ [(j, n)]).map (fun e => some e.1) ↔
              other.findiRootInfo r ∈ done.map (fun e => some e.1) := by
            have apart : other.findiRootInfo r ≠ some j := fun equal => same (find_inj found equal)
            simp [apart]
          rw [if_neg same]
          simp only [unseen]) map ⟨by simp, by simp⟩
  refine ⟨merged, ran, fun i => ?_, fun r => ?_⟩
  · rw [keys]
    have listed : ∀ j, j ∈ otherMap.toList.map Prod.fst ↔ j ∈ otherMap := by
      intro j
      rw [Std.ExtTreeMap.map_fst_toList_eq_keys, Std.ExtTreeMap.mem_keys]
    simp only [listed]
  · rw [values]
    split
    · rfl
    · next absent =>
      have missing : other.candidate otherMap r = ⊥ := by
        by_contra present
        obtain ⟨n, equal⟩ := WithBot.ne_bot_iff_exists.mp present
        obtain ⟨j, found, stored⟩ := candidate_eq_some.mp equal.symm
        apply absent
        rw [found]
        exact List.mem_map.mpr ⟨(j, n), (member j n).mpr stored, rfl⟩
      rw [missing, sup_bot_eq]

end Memo

end Maple.Idiom
