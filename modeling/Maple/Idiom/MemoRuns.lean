import Maple.Idiom.MemoMerge

/-! The contents of memos, and what every operation keeps of them. -/
namespace Maple.Idiom

/-- What a memo says of one iroot. -/
@[ext] structure Entry where
  exposed : Bool
  failed : Bool
  predicted : Bool
  shadowExposed : Bool
  /-- The test count of a candidate. -/
  candidate : WithBot ℕ
  totalTestRuns : ℕ
  async : Bool

namespace Entry

instance : Max Entry := ⟨fun a b => {
  exposed := a.exposed ⊔ b.exposed
  failed := a.failed ⊔ b.failed
  predicted := a.predicted ⊔ b.predicted
  shadowExposed := a.shadowExposed ⊔ b.shadowExposed
  candidate := a.candidate ⊔ b.candidate
  totalTestRuns := a.totalTestRuns ⊔ b.totalTestRuns
  async := a.async ⊔ b.async }⟩

instance : SemilatticeSup Entry := SemilatticeSup.mk'
  (fun _ _ => Entry.ext (sup_comm _ _) (sup_comm _ _) (sup_comm _ _) (sup_comm _ _) (sup_comm _ _)
    (sup_comm _ _) (sup_comm _ _))
  (fun _ _ _ => Entry.ext (sup_assoc _ _ _) (sup_assoc _ _ _) (sup_assoc _ _ _) (sup_assoc _ _ _)
    (sup_assoc _ _ _) (sup_assoc _ _ _) (sup_assoc _ _ _))
  (fun _ => Entry.ext (sup_idem _) (sup_idem _) (sup_idem _) (sup_idem _) (sup_idem _) (sup_idem _) (sup_idem _))

/-- An entry is kept when everything it says is still said. -/
theorem le_iff {a b : Entry} : a ≤ b ↔ a.exposed ≤ b.exposed ∧ a.failed ≤ b.failed ∧
    a.predicted ≤ b.predicted ∧ a.shadowExposed ≤ b.shadowExposed ∧ a.candidate ≤ b.candidate ∧
    a.totalTestRuns ≤ b.totalTestRuns ∧ a.async ≤ b.async := by
  rw [← sup_eq_right, Entry.ext_iff]
  simp only [← sup_eq_right (α := Bool), ← sup_eq_right (α := ℕ), ← sup_eq_right (α := WithBot ℕ)]
  rfl

end Entry

namespace Memo
open InfoTable
variable {m n other : Memo} {r : IRoot} {i : Info}

def content (m : Memo) (r : IRoot) : Entry where
  exposed := m.listed m.exposedSet r
  failed := m.listed m.failedSet r
  predicted := m.listed m.predictedSet r
  shadowExposed := m.listed m.shadowExposedSet r
  candidate := m.candidate m.candidateMap r
  totalTestRuns := (m.status r).1
  async := (m.status r).2

/-- The pointers of the collections are info objects of the memo, and candidates are predicted. -/
structure Wf (m : Memo) : Prop where
  exposed : ∀ i ∈ m.exposedSet, i < m.infos.length
  failed : ∀ i ∈ m.failedSet, i < m.infos.length
  predicted : ∀ i ∈ m.predictedSet, i < m.infos.length
  shadowExposed : ∀ i ∈ m.shadowExposedSet, i < m.infos.length
  candidates : ∀ i ∈ m.candidateMap, i ∈ m.predictedSet

theorem Wf.candidate_lt (wf : m.Wf) : ∀ i ∈ m.candidateMap, i < m.infos.length :=
  fun i member => wf.predicted i (wf.candidates i member)

theorem merged_valid {t u : InfoTable} (ext : t.Extends u) {o : InfoTable} {set merged otherSet : InfoSet}
    (valid : ∀ i ∈ set, i < t.infos.length)
    (members : ∀ i, i ∈ merged ↔ i ∈ set ∨ ∃ j ∈ otherSet, Matches o u j i) :
    ∀ i ∈ merged, i < u.infos.length := by
  intro i member
  rcases (members i).mp member with own | ⟨j, -, r, -, found⟩
  · exact Nat.lt_of_lt_of_le (valid i own) ext.length
  · exact find_lt found

/-- `Merge` fails no assertion and joins the contents. -/
theorem Wf.merge (wf : m.Wf) (otherWf : other.Wf) :
    ∃ n, m.merge other = some n ∧ n.Wf ∧ n.content = m.content ⊔ other.content := by
  obtain ⟨u, ran, ext, covers, statuses⟩ := mergeInfos_spec other.toInfoTable m.toInfoTable
  obtain ⟨exposed, ran₁, members₁⟩ := mergeSet_spec covers m.exposedSet otherWf.exposed
  obtain ⟨failed, ran₂, members₂⟩ := mergeSet_spec covers m.failedSet otherWf.failed
  obtain ⟨predicted, ran₃, members₃⟩ := mergeSet_spec covers m.predictedSet otherWf.predicted
  obtain ⟨shadow, ran₄, members₄⟩ := mergeSet_spec covers m.shadowExposedSet otherWf.shadowExposed
  obtain ⟨candidates, ran₅, keys, values⟩ := mergeCandidates_spec covers m.candidateMap otherWf.candidate_lt
  refine ⟨⟨u, exposed, failed, predicted, shadow, candidates⟩, ?_, ?_, ?_⟩
  · simp only [Memo.merge, ran, ran₁, ran₂, ran₃, ran₄, ran₅, Option.bind_eq_bind, Option.bind_some,
      Option.pure_def]
  · refine ⟨merged_valid ext wf.exposed members₁, merged_valid ext wf.failed members₂,
      merged_valid ext wf.predicted members₃, merged_valid ext wf.shadowExposed members₄, fun i member => ?_⟩
    rcases (keys i).mp member with own | ⟨j, theirs, same⟩
    · exact (members₃ i).mpr (Or.inl (wf.candidates i own))
    · exact (members₃ i).mpr (Or.inr ⟨j, otherWf.candidates j theirs, same⟩)
  · funext r
    apply Entry.ext
    · exact (listed_merged covers members₁ r).trans (by rw [ext.listed wf.exposed]; rfl)
    · exact (listed_merged covers members₂ r).trans (by rw [ext.listed wf.failed]; rfl)
    · exact (listed_merged covers members₃ r).trans (by rw [ext.listed wf.predicted]; rfl)
    · exact (listed_merged covers members₄ r).trans (by rw [ext.listed wf.shadowExposed]; rfl)
    · exact (values r).trans (by rw [ext.candidate wf.candidate_lt]; rfl)
    · exact congrArg Prod.fst (statuses r)
    · exact congrArg Prod.snd (statuses r)

theorem wf_empty : Memo.empty.Wf where
  exposed := by simp [Memo.empty]
  failed := by simp [Memo.empty]
  predicted := by simp [Memo.empty]
  shadowExposed := by simp [Memo.empty]
  candidates := by simp [Memo.empty]

/-- Operations on the info objects alone. -/
theorem Wf.extend (wf : m.Wf) {t : InfoTable} (ext : m.toInfoTable.Extends t) :
    ({ m with toInfoTable := t } : Memo).Wf where
  exposed i member := Nat.lt_of_lt_of_le (wf.exposed i member) ext.length
  failed i member := Nat.lt_of_lt_of_le (wf.failed i member) ext.length
  predicted i member := Nat.lt_of_lt_of_le (wf.predicted i member) ext.length
  shadowExposed i member := Nat.lt_of_lt_of_le (wf.shadowExposed i member) ext.length
  candidates := wf.candidates

theorem valid_insert {bound : ℕ} {set : InfoSet} (valid : ∀ i ∈ set, i < bound) (new : i < bound) :
    ∀ j ∈ set.insert i, j < bound := by
  intro j member
  rcases Std.ExtTreeSet.mem_insert.mp member with same | old
  · exact compare_eq_iff_eq.mp same ▸ new
  · exact valid j old

theorem Wf.insertExposed (wf : m.Wf) (new : i < m.infos.length) :
    ({ m with exposedSet := m.exposedSet.insert i } : Memo).Wf :=
  { wf with exposed := valid_insert wf.exposed new }

theorem Wf.getiRootInfo (wf : m.Wf) (r : IRoot) :
    ({ m with toInfoTable := (m.getiRootInfo r).1 } : Memo).Wf ∧
      (m.getiRootInfo r).2 < (m.getiRootInfo r).1.infos.length := by
  obtain ⟨ext, found, -⟩ := getiRootInfo_spec m.toInfoTable r
  exact ⟨wf.extend ext, find_lt found⟩

theorem Wf.countTest (wf : m.Wf) {total : ℕ} (counted : m.countTest r = some (n, i, total)) :
    n.Wf ∧ i < n.infos.length := by
  obtain ⟨got, bound⟩ := wf.getiRootInfo r
  simp only [Memo.countTest, Option.bind_eq_bind, Option.bind_eq_some_iff, Option.pure_def,
    Option.some.injEq, Prod.mk.injEq] at counted
  obtain ⟨runs, candidate, info, listed, rfl, rfl, rfl⟩ := counted
  have here : (m.getiRootInfo r).2 ∈ m.candidateMap :=
    Std.ExtTreeMap.mem_iff_isSome_getElem?.mpr (by simp [candidate])
  have stays : ((m.getiRootInfo r).1.setTotalTestRuns (m.getiRootInfo r).2 (info.totalTestRuns + 1)).infos.length =
      (m.getiRootInfo r).1.infos.length := by simp [setTotalTestRuns, InfoTable.modify]
  refine ⟨{ got.extend Extends.modify with candidates := fun j member => ?_ }, stays.symm ▸ bound⟩
  rcases Std.ExtTreeMap.mem_insert.mp member with same | old
  · exact wf.candidates j (compare_eq_iff_eq.mp same ▸ here)
  · exact wf.candidates j old

theorem Wf.testSuccess (wf : m.Wf) (tested : m.testSuccess r = some n) : n.Wf := by
  obtain ⟨⟨k, i, total⟩, counted, stored⟩ := Option.bind_eq_some_iff.mp tested
  cases stored
  obtain ⟨kept, bound⟩ := wf.countTest counted
  exact kept.insertExposed bound

theorem Wf.testFail (wf : m.Wf) (tested : m.testFail r = some n) : n.Wf := by
  obtain ⟨⟨k, i, total⟩, counted, stored⟩ := Option.bind_eq_some_iff.mp tested
  cases stored
  obtain ⟨kept, bound⟩ := wf.countTest counted
  split
  · exact { kept with failed := valid_insert kept.failed bound }
  · exact kept

theorem Wf.observed (wf : m.Wf) (r : IRoot) (shadow : Bool) : (m.observed r shadow).Wf := by
  obtain ⟨got, bound⟩ := wf.getiRootInfo r
  cases shadow with
  | true => exact { got with shadowExposed := valid_insert got.shadowExposed bound }
  | false => exact got.insertExposed bound

theorem Wf.setAsync (wf : m.Wf) (r : IRoot) : (m.setAsync r).Wf :=
  (wf.getiRootInfo r).1.extend Extends.modify

/-- The assertion of `Predicted` holds. -/
theorem Wf.predicted_spec (wf : m.Wf) (r : IRoot) : ∃ n, m.predicted r = some n ∧ n.Wf := by
  obtain ⟨got, bound⟩ := wf.getiRootInfo r
  by_cases old : m.predictedSet.contains (m.getiRootInfo r).2
  · exact ⟨_, by simp only [Memo.predicted, old, if_true]; rfl, got⟩
  · have absent : m.candidateMap[(m.getiRootInfo r).2]? = none := by
      apply Std.ExtTreeMap.getElem?_eq_none
      intro member
      exact old (Std.ExtTreeSet.mem_iff_contains.mp (wf.candidates _ member))
    refine ⟨_, by simp only [Memo.predicted, old, debugAssert_pos absent]; rfl, ?_⟩
    refine { got with predicted := valid_insert got.predicted bound, candidates := fun j member => ?_ }
    rcases Std.ExtTreeMap.mem_insert.mp member with same | candidate
    · exact Std.ExtTreeSet.mem_insert.mpr (Or.inl same)
    · exact Std.ExtTreeSet.mem_insert.mpr (Or.inr (wf.candidates j candidate))

theorem getElem?_foldl_erase (pointers : List Info) (map : OrdMap Info ℕ) (i : Info) :
    (pointers.foldl (fun map i => map.erase i) map)[i]? = if i ∈ pointers then none else map[i]? := by
  induction pointers generalizing map with
  | nil => rfl
  | cons first rest ih =>
    rw [List.foldl_cons, ih]
    by_cases same : first = i
    · subst same
      simp
    · simp [Std.ExtTreeMap.getElem?_erase, same, Ne.symm same]

/-- The candidates that are left. -/
theorem refineCandidate_iff {memoFailed : Bool} {runs : ℕ} :
    (m.refineCandidate memoFailed).candidateMap[i]? = some runs ↔
      m.candidateMap[i]? = some runs ∧ runs < failedLimit ∧ i ∉ m.exposedSet ∧
        (memoFailed = true → i ∉ m.failedSet) := by
  cases memoFailed with
  | true =>
    simp only [Memo.refineCandidate, if_true, getElem?_foldl_erase, Std.ExtTreeSet.mem_toList, true_implies]
    by_cases failed : i ∈ m.failedSet
    · simp [failed]
    · by_cases exposed : i ∈ m.exposedSet
      · simp [exposed]
      · simp [failed, exposed]
  | false =>
    simp only [Memo.refineCandidate, Bool.false_eq_true, if_false, getElem?_foldl_erase,
      Std.ExtTreeSet.mem_toList, false_implies, and_true]
    by_cases exposed : i ∈ m.exposedSet
    · simp [exposed]
    · simp [exposed]

theorem Wf.refineCandidate (wf : m.Wf) (memoFailed : Bool) : (m.refineCandidate memoFailed).Wf := by
  refine { wf with candidates := fun i member => ?_ }
  obtain ⟨runs, found⟩ := Option.isSome_iff_exists.mp (Std.ExtTreeMap.mem_iff_isSome_getElem?.mp member)
  obtain ⟨old, -⟩ := refineCandidate_iff.mp found
  exact wf.candidates i (Std.ExtTreeMap.mem_iff_isSome_getElem?.mpr (by simp [old]))

/-- Memos that the operations make from empty ones. Tests are of current candidates. -/
inductive Reachable : Memo → Prop
  | empty : Reachable .empty
  | predicted {m n : Memo} (r : IRoot) (reached : Reachable m) (done : m.predicted r = some n) : Reachable n
  | observed {m : Memo} (r : IRoot) (shadow : Bool) (reached : Reachable m) : Reachable (m.observed r shadow)
  | setAsync {m : Memo} (r : IRoot) (reached : Reachable m) : Reachable (m.setAsync r)
  | testSuccess {m n : Memo} (r : IRoot) (reached : Reachable m) (done : m.testSuccess r = some n) : Reachable n
  | testFail {m n : Memo} (r : IRoot) (reached : Reachable m) (done : m.testFail r = some n) : Reachable n
  | merge {m other n : Memo} (reached : Reachable m) (otherReached : Reachable other)
      (done : m.merge other = some n) : Reachable n
  | refineCandidate {m : Memo} (memoFailed : Bool) (reached : Reachable m) :
      Reachable (m.refineCandidate memoFailed)

theorem Reachable.wf (reached : m.Reachable) : m.Wf := by
  induction reached with
  | empty => exact wf_empty
  | predicted r _ done ih =>
    obtain ⟨n, stepped, wf⟩ := ih.predicted_spec r
    cases stepped.symm.trans done
    exact wf
  | observed r shadow _ ih => exact ih.observed r shadow
  | setAsync r _ ih => exact ih.setAsync r
  | testSuccess r _ done ih => exact ih.testSuccess done
  | testFail r _ done ih => exact ih.testFail done
  | merge _ _ done ih otherIh =>
    obtain ⟨n, merged, wf, -⟩ := ih.merge otherIh
    cases merged.symm.trans done
    exact wf
  | refineCandidate memoFailed _ ih => exact ih.refineCandidate memoFailed

theorem Wf.candidate_predicted (wf : m.Wf) (r : IRoot) (candidate : (m.content r).candidate ≠ ⊥) :
    (m.content r).predicted = true := by
  obtain ⟨n, equal⟩ := WithBot.ne_bot_iff_exists.mp candidate
  obtain ⟨i, found, stored⟩ := candidate_eq_some.mp equal.symm
  exact listed_iff.mpr ⟨i, found, wf.candidates i (Std.ExtTreeMap.mem_iff_isSome_getElem?.mpr (by simp [stored]))⟩

theorem listed_of_find {t : InfoTable} {set : InfoSet} (found : t.findiRootInfo r = some i) (absent : i ∉ set) :
    t.listed set r = false := by
  rw [Bool.eq_false_iff, ne_eq, listed_iff]
  rintro ⟨j, other, member⟩
  cases found.symm.trans other
  exact absent member

theorem refined_candidate (m : Memo) (r : IRoot) (runs : ℕ)
    (candidate : ((m.refineCandidate true).content r).candidate = WithBot.some runs) :
    ((m.refineCandidate true).content r).exposed = false ∧
      ((m.refineCandidate true).content r).failed = false ∧ runs < failedLimit := by
  obtain ⟨i, found, stored⟩ := candidate_eq_some.mp candidate
  obtain ⟨-, few, unexposed, unfailed⟩ := refineCandidate_iff.mp stored
  exact ⟨listed_of_find found unexposed, listed_of_find found (unfailed rfl), few⟩

end Memo

/-- Merging is a join of contents, candidates are predicted, and a refined merge has
candidates left only that are neither exposed nor failed nor tested too often. -/
theorem memo_merge_join {a b c : Memo} (first : a.Reachable) (second : b.Reachable) (third : c.Reachable) :
    (∃ ab ba, a.merge b = some ab ∧ b.merge a = some ba ∧ ab.content = ba.content ∧
      a.content ≤ ab.content ∧ b.content ≤ ab.content ∧
      (∃ left bc right, ab.merge c = some left ∧ b.merge c = some bc ∧ a.merge bc = some right ∧
        left.content = right.content) ∧
      ∀ r (runs : ℕ), ((ab.refineCandidate true).content r).candidate = WithBot.some runs →
        ((ab.refineCandidate true).content r).exposed = false ∧
        ((ab.refineCandidate true).content r).failed = false ∧ runs < Memo.failedLimit) ∧
    (∃ aa, a.merge a = some aa ∧ aa.content = a.content) ∧
    ∀ r, ((a.content r).candidate ≠ ⊥ → (a.content r).predicted = true) ∧ (a.predicted r).isSome := by
  obtain ⟨ab, merged, abWf, abJoin⟩ := first.wf.merge second.wf
  obtain ⟨ba, merged', -, baJoin⟩ := second.wf.merge first.wf
  obtain ⟨left, leftMerged, -, leftJoin⟩ := abWf.merge third.wf
  obtain ⟨bc, bcMerged, bcWf, bcJoin⟩ := second.wf.merge third.wf
  obtain ⟨right, rightMerged, -, rightJoin⟩ := first.wf.merge bcWf
  obtain ⟨aa, self, -, aaJoin⟩ := first.wf.merge first.wf
  refine ⟨⟨ab, ba, merged, merged', ?_, ?_, ?_, ⟨left, bc, right, leftMerged, bcMerged, rightMerged, ?_⟩,
    ab.refined_candidate⟩, ⟨aa, self, ?_⟩, fun r => ⟨first.wf.candidate_predicted r, ?_⟩⟩
  · rw [abJoin, baJoin, sup_comm]
  · rw [abJoin]
    exact le_sup_left
  · rw [abJoin]
    exact le_sup_right
  · rw [leftJoin, abJoin, rightJoin, bcJoin, sup_assoc]
  · rw [aaJoin, sup_idem]
  · obtain ⟨n, predicted, -⟩ := first.wf.predicted_spec r
    simp [predicted]

/-- One memo has seen an iroot that the other one is still testing. -/
theorem memo_merge_join_pair : ∃ a b : Memo, a.Reachable ∧ b.Reachable ∧
    ∃ ab ba, a.merge b = some ab ∧ b.merge a = some ba ∧ ab.content = ba.content := by
  obtain ⟨b, predicted, -⟩ := Memo.wf_empty.predicted_spec 3
  have reached : b.Reachable := .predicted 3 .empty predicted
  have seen : (Memo.empty.observed 3 false).Reachable := .observed 3 false .empty
  obtain ⟨⟨ab, ba, merged, merged', same, -⟩, -⟩ := memo_merge_join seen reached .empty
  exact ⟨_, b, seen, reached, ab, ba, merged, merged', same⟩

end Maple.Idiom
