import Maple.Idiom.Acquisitions

/-! What `ProcessAccSumUpdate` does to the summaries and the tables of a predictor. -/
namespace Maple.Idiom

/-- The clocks of a summary behind one more access. -/
def pushClock (tinfo : List (VectorClock × ThdClkInfo)) (acc : VectorClock × ℕ) : List (VectorClock × ThdClkInfo) :=
  match tinfo.getLast? with
  | none => [(acc.1, ⟨acc.2, acc.2⟩)]
  | some entry =>
    if acc.1.equal entry.1 then tinfo.dropLast ++ [(entry.1, addThdClk entry.2 acc.2)]
    else tinfo ++ [(acc.1, ⟨acc.2, acc.2⟩)]

theorem pushClock_ne_nil (tinfo : List (VectorClock × ThdClkInfo)) (acc : VectorClock × ℕ) :
    pushClock tinfo acc ≠ [] := by
  unfold pushClock
  split
  · simp
  · split <;> simp

/-- Two flagged lock sets match when they are equal. -/
theorem FLockSet.isMatch_iff {fls1 fls2 : FLockSet} :
    fls1.isMatch fls2 = true ↔ ∀ l : Address, fls1.lockFlagTable[l]? = fls2.lockFlagTable[l]? := by
  simp only [isMatch, Bool.and_eq_true, decide_eq_true_eq, List.all_eq_true]
  constructor
  · rintro ⟨sizes, entries⟩
    have included : fls1.lockFlagTable.toList ⊆ fls2.lockFlagTable.toList := by
      rintro ⟨l, flag⟩ member
      have same := entries _ member
      dsimp only at same
      split at same
      · exact nomatch same
      · next other found =>
        simp only [Bool.and_eq_true, decide_eq_true_eq] at same
        apply Std.ExtTreeMap.mem_toList_iff_getElem?_eq_some.mpr
        rw [found, ← Prod.ext same.1 same.2]
    have distinct : fls1.lockFlagTable.toList.Nodup :=
      Std.ExtTreeMap.distinct_keys_toList.imp fun apart same => apart (by simp [same])
    have perm : fls1.lockFlagTable.toList.Perm fls2.lockFlagTable.toList := by
      apply (distinct.subperm included).perm_of_length_le
      rw [Std.ExtTreeMap.length_toList, Std.ExtTreeMap.length_toList]
      exact sizes.ge
    intro l
    rw [Std.ExtTreeMap.ext_toList perm]
  · intro same
    have equal : fls1.lockFlagTable = fls2.lockFlagTable := Std.ExtTreeMap.ext_getElem? same
    rw [equal]
    refine ⟨rfl, ?_⟩
    rintro ⟨l, flag⟩ member
    simp [Std.ExtTreeMap.mem_toList_iff_getElem?_eq_some.mp member]

/-- The summary is about accesses like this one. -/
structure About (a : AccSum) (dynAcc : DynAcc) : Prop extends Fields a dynAcc.access where
  fls : ∀ l : Address, a.fls.lockFlagTable[l]? = dynAcc.fls.lockFlagTable[l]?

namespace PredictorNew
variable {atomicInstSet : InstId → Bool} {ptrs : Pointers} {p next : PredictorNew} {dynAcc : DynAcc} {n : ℕ}

theorem matchAccSum_about (found : p.matchAccSum ptrs dynAcc = some n) :
    ∃ a, p.accSums[n]? = some a ∧ About a dynAcc := by
  unfold matchAccSum at found
  have holds := List.find?_some found
  obtain ⟨a, stored, passed⟩ := (Option.any_eq_true _ _).mp holds
  simp only [Bool.and_eq_true, decide_eq_true_eq] at passed
  obtain ⟨⟨⟨⟨meta_, thd⟩, type⟩, inst⟩, fls⟩ := passed
  exact ⟨a, stored, ⟨meta_, thd, type, inst⟩, FLockSet.isMatch_iff.mp fls⟩

/-- The summaries in the table of a meta. -/
def Listed (p : PredictorNew) (m : MetaId) : Prop :=
  ∀ t s, s ∈ p.sumsOf m t ↔ ∃ a, p.accSums[s]? = some a ∧ a.metaId = m ∧ a.thdId = t

/-- An access has gone into the summary `n`. -/
structure Passed (p next : PredictorNew) (dynAcc : DynAcc) (n : ℕ) : Prop where
  sync : next.sync = p.sync
  live : ∀ m, m ∈ next.accHistos ↔ m = dynAcc.metaId ∨ m ∈ p.accHistos
  last : ∀ m, (next.accHisto m).lastDynAccTable = (p.accHisto m).lastDynAccTable
  others : ∀ i, i ≠ n → next.accSums[i]? = p.accSums[i]?
  summary : ∃ a, next.accSums[n]? = some a ∧ About a dynAcc ∧
    a.tinfo = pushClock ((p.accSums[n]?.map (·.tinfo)).getD []) (dynAcc.vc, dynAcc.thdClk)
  same : ∀ old, p.accSums[n]? = some old → ∃ tinfo, next.accSums[n]? = some { old with tinfo := tinfo }
  sums : ∀ m t i, i ∈ next.sumsOf m t ↔
    i ∈ p.sumsOf m t ∨ i = n ∧ p.accSums[n]? = none ∧ m = dynAcc.metaId ∧ t = dynAcc.thdId
  wf : next.pairs.Wf

theorem search_wf (atomicInstSet : InstId → Bool) (dynAcc : DynAcc) {accSum : AccSum}
    (listed : p.Listed dynAcc.metaId) (wf : p.pairs.Wf)
    (found : p.accSums[n]? = some accSum) (about : accSum.metaId = dynAcc.metaId) :
    ∃ pairs, p.search atomicInstSet dynAcc n = some { p with pairs := pairs } ∧ pairs.Wf := by
  have remote : ∀ rmt ∈ p.remotes dynAcc.metaId accSum.thdId,
      ∃ a, p.accSums[rmt]? = some a ∧ accSum.metaId = a.metaId := by
    intro rmt member
    obtain ⟨a, foundRmt, same, -⟩ := (mem_remotes listed).mp member
    exact ⟨a, foundRmt, about.trans same.symm⟩
  obtain ⟨pairs, ran, wf, -⟩ := searchLoop_spec atomicInstSet dynAcc.vc wf found remote
  exact ⟨pairs, by simp only [search, found, ran, Option.bind_eq_bind, Option.bind_some]; rfl, wf⟩

theorem Listed.setTinfo {s : ℕ} {a : AccSum} {m : MetaId} (tinfo : List (VectorClock × ThdClkInfo))
    (listed : p.Listed m) (found : p.accSums[s]? = some a) : (p.setTinfo s a tinfo).Listed m := by
  intro t i
  rw [table_setTinfo found]
  exact listed t i

theorem Listed.createAccSum {m : MetaId} (ptrs : Pointers) (listed : p.Listed m) :
    (p.createAccSum ptrs dynAcc).Listed m := by
  intro t i
  rw [sumsOf_createAccSum, getElem?_createAccSum]
  have fresh : p.accSums[p.accSums.length]? = none := List.getElem?_eq_none le_rfl
  by_cases new : i = p.accSums.length
  · subst new
    have unlisted : p.accSums.length ∉ p.sumsOf m t := by
      intro member
      obtain ⟨a, stored, -⟩ := (listed t _).mp member
      exact nomatch fresh.symm.trans stored
    rw [if_pos rfl]
    simp only [Option.some.injEq, exists_eq_left']
    split
    · next own => exact iff_of_true (by simp) own
    · next other => exact iff_of_false unlisted other
  · rw [if_neg new, ← listed t i]
    split
    · simp [new]
    · rfl

theorem setTinfo_passed {accSum : AccSum} (pairs : PairIndex) (found : p.accSums[n]? = some accSum)
    (about : About accSum dynAcc) (live : dynAcc.metaId ∈ p.accHistos) (wf : pairs.Wf) :
    p.Passed { p.setTinfo n accSum (pushClock accSum.tinfo (dynAcc.vc, dynAcc.thdClk)) with pairs := pairs } dynAcc n := by
  constructor
  case sync => rfl
  case live => exact fun m => (or_iff_right_of_imp fun same => same ▸ live).symm
  case last => exact fun _ => rfl
  case others => exact fun i other => (getElem?_setTinfo found i).trans (if_neg (Ne.symm other))
  case summary =>
    refine ⟨_, (getElem?_setTinfo found n).trans (if_pos rfl),
      ⟨⟨about.metaId, about.thdId, about.type, about.inst⟩, about.fls⟩, ?_⟩
    rw [found]
    rfl
  case same =>
    intro old stored
    cases found.symm.trans stored
    exact ⟨_, (getElem?_setTinfo found n).trans (if_pos rfl)⟩
  case sums =>
    intro m t i
    refine (or_iff_left ?_).symm
    rintro ⟨-, missing, -⟩
    exact nomatch found.symm.trans missing
  case wf => exact wf

theorem createAccSum_passed (ptrs : Pointers) {pairs : PairIndex} (wf : pairs.Wf) :
    p.Passed { p.createAccSum ptrs dynAcc with pairs := pairs } dynAcc p.accSums.length := by
  have fresh : p.accSums[p.accSums.length]? = none := List.getElem?_eq_none le_rfl
  constructor
  case sync => rfl
  case live =>
    intro m
    change m ∈ p.accHistos.insert _ _ ↔ _
    rw [Std.ExtTreeMap.mem_insert, Nat.compare_eq_eq, eq_comm]
  case last =>
    intro m
    change ((p.createAccSum ptrs dynAcc).accHisto m).lastDynAccTable = _
    rw [accHisto_createAccSum]
    split <;> rfl
  case others => exact fun i other => (getElem?_createAccSum ptrs i).trans (if_neg other)
  case summary =>
    refine ⟨_, (getElem?_createAccSum ptrs _).trans (if_pos rfl), ⟨⟨rfl, rfl, rfl, rfl⟩, fun _ => rfl⟩, ?_⟩
    rw [fresh]
    rfl
  case same => exact fun old stored => nomatch fresh.symm.trans stored
  case sums =>
    intro m t i
    change i ∈ (p.createAccSum ptrs dynAcc).sumsOf m t ↔ _
    rw [sumsOf_createAccSum]
    simp only [fresh, true_and]
    split
    · next own => simp [own]
    · next other =>
      refine (or_iff_left ?_).symm
      rintro ⟨-, rfl, rfl⟩
      exact other ⟨rfl, rfl⟩
  case wf => exact wf

/-- It never fails, and the access goes into one summary. -/
theorem processAccSumUpdate_passed (ptrs : Pointers) (atomicInstSet : InstId → Bool) (dynAcc : DynAcc)
    (listed : p.Listed dynAcc.metaId) (live : dynAcc.metaId ∈ p.accHistos)
    (nonempty : ∀ (s : ℕ) a, p.accSums[s]? = some a → a.tinfo ≠ [])
    (wf : p.pairs.Wf) :
    ∃ next n, p.processAccSumUpdate ptrs atomicInstSet dynAcc = some (next, n) ∧ p.Passed next dynAcc n := by
  unfold processAccSumUpdate
  cases hit : p.matchAccSum ptrs dynAcc with
  | none =>
    obtain ⟨pairs, searched, wf⟩ := search_wf atomicInstSet dynAcc (listed.createAccSum ptrs) wf
      ((getElem?_createAccSum ptrs _).trans (if_pos rfl)) rfl
    refine ⟨_, p.accSums.length, ?_, createAccSum_passed ptrs wf⟩
    dsimp only
    rw [searched]
    rfl
  | some s =>
    obtain ⟨a, found, about⟩ := matchAccSum_about hit
    obtain ⟨entry, newest⟩ := Option.isSome_iff_exists.mp (List.getLast?_isSome.mpr (nonempty s a found))
    have passed := setTinfo_passed p.pairs found about live wf
    simp only [found, newest, Option.bind_eq_bind, Option.bind_some]
    split
    · next repeated =>
      have pushed : pushClock a.tinfo (dynAcc.vc, dynAcc.thdClk) =
          a.tinfo.dropLast ++ [(entry.1, addThdClk entry.2 dynAcc.thdClk)] := by
        simp only [pushClock, newest, repeated, if_true]
      rw [pushed] at passed
      exact ⟨_, s, rfl, passed⟩
    · next changed =>
      have pushed : pushClock a.tinfo (dynAcc.vc, dynAcc.thdClk) =
          a.tinfo ++ [(dynAcc.vc, ⟨dynAcc.thdClk, dynAcc.thdClk⟩)] := by
        simp only [pushClock, newest, changed, Bool.false_eq_true, if_false]
      obtain ⟨pairs, searched, wf⟩ := search_wf atomicInstSet dynAcc
        (listed.setTinfo (a.tinfo ++ [(dynAcc.vc, ⟨dynAcc.thdClk, dynAcc.thdClk⟩)]) found) wf
        ((getElem?_setTinfo found s).trans (if_pos rfl)) about.metaId
      have passed := setTinfo_passed pairs found about live wf
      rw [pushed] at passed
      exact ⟨_, s, by rw [searched]; rfl, passed⟩

end PredictorNew
end Maple.Idiom
