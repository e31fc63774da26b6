import Maple.Idiom.IRootDb
import Maple.Idiom.MemoFile

/-! Active testing as `idiom/scheduler.cpp` does it: every run loads the memo, chooses an
iroot, tests it, refines the candidates and saves the memo. -/
namespace Maple.Idiom

/-- What the memo asks of an iroot of the database. -/
structure IRootFacts where
  idiom : IRoot → IdiomType
  hasCommonLibEvent : IRoot → Bool

namespace Memo

/-- Step 1 of `ChooseForTest`: the candidates of an idiom by their iroot ids. -/
def candidatesOf (m : Memo) (db : IRootFacts) (idiom : IdiomType) : OrdMap IRoot IRootInfo :=
  m.candidateMap.toList.foldl (fun candidates entry =>
    match m.infos[entry.1]? with
    | none => candidates
    | some info => if db.idiom info.iroot = idiom then candidates.insert info.iroot info else candidates) ∅

/-- The loops of steps 2 and 3: the first record with the smallest number of test runs. -/
def leastRuns : Option IRootInfo → List IRootInfo → Option IRootInfo
  | candidate, [] => candidate
  | none, info :: rest => leastRuns (some info) rest
  | some candidate, info :: rest =>
    leastRuns (if info.totalTestRuns < candidate.totalTestRuns then some info else some candidate) rest

def chooseForIdiom (m : Memo) (db : IRootFacts) (idiom : IdiomType) : Option IRoot :=
  let candidates := (m.candidatesOf db idiom).toList.map (·.2)
  -- iroots of the application come before those of common libraries
  match leastRuns none (candidates.filter fun info => !db.hasCommonLibEvent info.iroot) with
  | some info => some info.iroot
  | none => (leastRuns none candidates).map IRootInfo.iroot

def chooseForTest (m : Memo) (db : IRootFacts) : Option IRoot :=
  [IdiomType.idiom1, .idiom2, .idiom3, .idiom4, .idiom5].findSome? (m.chooseForIdiom db)

def totalCandidate (m : Memo) : ℕ := m.candidateMap.size

end Memo

/-- What happens to the memo in one run of the program under test. -/
structure TestRun where
  /-- Calls of `Observed` before and after the verdict. -/
  before : List (IRoot × Bool) := []
  success : Bool
  after : List (IRoot × Bool) := []
  /-- The knob `memo_failed`. -/
  memoFailed : Bool := true

namespace Memo

def observeds (m : Memo) (calls : List (IRoot × Bool)) : Memo :=
  calls.foldl (fun m call => m.observed call.1 call.2) m

/-- `Choose`, the run, and `HandleProgramExit`. Without an iroot to test there is no run. -/
def testRun (db : IRootFacts) (m : Memo) (run : TestRun) : Option (Memo × IRoot) := do
  let iroot ← m.chooseForTest db
  let m := m.observeds run.before
  let m ← if run.success then m.testSuccess iroot else m.testFail iroot
  return ((m.observeds run.after).refineCandidate run.memoFailed, iroot)

end Memo

/-- The same on the file. -/
def testRun (db : IRootFacts) (proto : MemoProto) (run : TestRun) : Option (MemoProto × IRoot) := do
  let m ← Memo.load proto
  let (m, iroot) ← m.testRun db run
  let proto ← m.save
  return (proto, iroot)

/-- Calls of the profiler. -/
inductive ProfileCall where
  | predicted (iroot : IRoot)
  | observed (iroot : IRoot) (shadow : Bool)

def Memo.profile : Memo → ProfileCall → Option Memo
  | m, .predicted iroot => m.predicted iroot
  | m, .observed iroot shadow => some (m.observed iroot shadow)

namespace Memo
open InfoTable
variable {m n : Memo} {db : IRootFacts} {idiom : IdiomType} {r : IRoot} {i : Info} {info : IRootInfo}

theorem leastRuns_mem {candidate : Option IRootInfo} {infos : List IRootInfo}
    (least : leastRuns candidate infos = some info) : candidate = some info ∨ info ∈ infos := by
  induction infos generalizing candidate with
  | nil => exact Or.inl least
  | cons first rest ih =>
    cases candidate with
    | none =>
      rcases ih least with same | later
      · cases same
        exact Or.inr List.mem_cons_self
      · exact Or.inr (List.mem_cons_of_mem _ later)
    | some best =>
      rw [leastRuns] at least
      rcases ih least with same | later
      · split at same
        · cases same
          exact Or.inr List.mem_cons_self
        · exact Or.inl same
      · exact Or.inr (List.mem_cons_of_mem _ later)

theorem leastRuns_isSome (best : IRootInfo) (infos : List IRootInfo) : (leastRuns (some best) infos).isSome := by
  induction infos generalizing best with
  | nil => rfl
  | cons first rest ih =>
    rw [leastRuns]
    split
    · exact ih first
    · exact ih best

theorem leastRuns_none {infos : List IRootInfo} (none_ : leastRuns none infos = none) : infos = [] := by
  cases infos with
  | nil => rfl
  | cons first rest =>
    have found := leastRuns_isSome first rest
    rw [leastRuns] at none_
    rw [none_] at found
    exact nomatch found

/-- What the fold of step 1 collects. -/
theorem getElem?_candidates (entries : List (Info × ℕ)) (candidates : OrdMap IRoot IRootInfo) :
    let last := entries.foldl (fun candidates entry =>
      match m.infos[entry.1]? with
      | none => candidates
      | some info => if db.idiom info.iroot = idiom then candidates.insert info.iroot info else candidates) candidates
    (∀ (r : IRoot) (info : IRootInfo), last[r]? = some info → candidates[r]? = some info ∨
      ∃ entry ∈ entries, m.infos[entry.1]? = some info ∧ db.idiom info.iroot = idiom) ∧
    (∀ r : IRoot, r ∈ candidates → r ∈ last) ∧
    ∀ entry ∈ entries, ∀ info : IRootInfo, m.infos[entry.1]? = some info → db.idiom info.iroot = idiom → info.iroot ∈ last := by
  induction entries generalizing candidates with
  | nil => exact ⟨fun _ _ => Or.inl, fun _ => id, fun _ member => nomatch member⟩
  | cons entry rest ih =>
    simp only [List.foldl_cons]
    cases listed : m.infos[entry.1]? with
    | none =>
      obtain ⟨origin, stays, all⟩ := ih candidates
      refine ⟨fun r info found => ?_, stays, fun entry' member info found same => ?_⟩
      · refine (origin r info found).imp_right ?_
        rintro ⟨entry', member, rest⟩
        exact ⟨entry', List.mem_cons_of_mem _ member, rest⟩
      · rcases List.mem_cons.mp member with rfl | later
        · exact nomatch listed.symm.trans found
        · exact all entry' later info found same
    | some first =>
      by_cases own : db.idiom first.iroot = idiom
      · simp only [if_pos own]
        obtain ⟨origin, stays, all⟩ := ih (candidates.insert first.iroot first)
        refine ⟨fun r info found => ?_, fun r member => stays r (Std.ExtTreeMap.mem_insert.mpr (Or.inr member)),
          fun entry' member info found same => ?_⟩
        · rcases origin r info found with inserted | ⟨entry', member, rest⟩
          · rw [getElem?_insert_thread] at inserted
            split at inserted
            · cases inserted
              exact Or.inr ⟨entry, List.mem_cons_self, listed, own⟩
            · exact Or.inl inserted
          · exact Or.inr ⟨entry', List.mem_cons_of_mem _ member, rest⟩
        · rcases List.mem_cons.mp member with rfl | later
          · cases listed.symm.trans found
            exact stays _ Std.ExtTreeMap.mem_insert_self
          · exact all entry' later info found same
      · simp only [if_neg own]
        obtain ⟨origin, stays, all⟩ := ih candidates
        refine ⟨fun r info found => ?_, stays, fun entry' member info found same => ?_⟩
        · refine (origin r info found).imp_right ?_
          rintro ⟨entry', member, rest⟩
          exact ⟨entry', List.mem_cons_of_mem _ member, rest⟩
        · rcases List.mem_cons.mp member with rfl | later
          · cases listed.symm.trans found
            exact absurd same own
          · exact all entry' later info found same

/-- The candidates of an idiom are records of the candidate map. -/
theorem exists_candidate (member : info ∈ (m.candidatesOf db idiom).toList.map (·.2)) :
    ∃ k : ℕ, (m.content info.iroot).candidate = WithBot.some k := by
  obtain ⟨⟨r, info⟩, entry, rfl⟩ := List.mem_map.mp member
  have found := Std.ExtTreeMap.mem_toList_iff_getElem?_eq_some.mp entry
  rcases (getElem?_candidates m.candidateMap.toList ∅).1 r info found with impossible | ⟨entry, member, listed, _⟩
  · simp at impossible
  · exact ⟨entry.2, candidate_eq_some.mpr ⟨entry.1, find_iroot listed,
      Std.ExtTreeMap.mem_toList_iff_getElem?_eq_some.mp member⟩⟩

theorem chooseForIdiom_candidate (chosen : m.chooseForIdiom db idiom = some r) :
    ∃ k : ℕ, (m.content r).candidate = WithBot.some k := by
  simp only [chooseForIdiom] at chosen
  split at chosen
  · next info least =>
    cases chosen
    have member := (leastRuns_mem least).resolve_left nofun
    exact exists_candidate (List.mem_filter.mp member).1
  · obtain ⟨info, least, rfl⟩ := Option.map_eq_some_iff.mp chosen
    exact exists_candidate ((leastRuns_mem least).resolve_left nofun)

/-- The chosen iroot is a candidate. -/
theorem chooseForTest_candidate (chosen : m.chooseForTest db = some r) :
    ∃ k : ℕ, (m.content r).candidate = WithBot.some k := by
  obtain ⟨idiom, _, found⟩ := List.exists_of_findSome?_eq_some chosen
  exact chooseForIdiom_candidate found

theorem IdiomType.mem_all (idiom : IdiomType) :
    idiom ∈ [IdiomType.idiom1, .idiom2, .idiom3, .idiom4, .idiom5] := by
  cases idiom <;> decide

/-- If no iroot is chosen, there is no candidate. -/
theorem chooseForTest_none (none_ : m.chooseForTest db = none) (r : IRoot) : (m.content r).candidate = ⊥ := by
  by_contra left
  obtain ⟨k, same⟩ := WithBot.ne_bot_iff_exists.mp left
  obtain ⟨i, found, stored⟩ := candidate_eq_some.mp same.symm
  obtain ⟨info, listed, rfl, _⟩ := exists_record found
  have idle : m.chooseForIdiom db (db.idiom info.iroot) = none :=
    List.findSome?_eq_none_iff.mp none_ _ (IdiomType.mem_all _)
  simp only [chooseForIdiom] at idle
  split at idle
  · exact nomatch idle
  · have empty := leastRuns_none (Option.map_eq_none_iff.mp idle)
    have member : info.iroot ∈ m.candidatesOf db (db.idiom info.iroot) :=
      (getElem?_candidates m.candidateMap.toList ∅).2.2 (i, k)
        (Std.ExtTreeMap.mem_toList_iff_getElem?_eq_some.mpr stored) info listed rfl
    obtain ⟨other, there⟩ := Option.isSome_iff_exists.mp (Std.ExtTreeMap.mem_iff_isSome_getElem?.mp member)
    have entry := List.mem_map_of_mem (f := (·.2)) (Std.ExtTreeMap.mem_toList_iff_getElem?_eq_some.mpr there)
    rw [empty] at entry
    exact nomatch entry

/-- A memo with new info objects says the same. -/
theorem Wf.content_getiRootInfo (wf : m.Wf) (r r' : IRoot) :
    ({ m with toInfoTable := (m.getiRootInfo r).1 } : Memo).content r' = m.content r' := by
  obtain ⟨ext, -, -⟩ := getiRootInfo_spec m.toInfoTable r
  have statuses := status_getiRootInfo m.toInfoTable r r'
  apply Entry.ext
  · exact ext.listed wf.exposed r'
  · exact ext.listed wf.failed r'
  · exact ext.listed wf.predicted r'
  · exact ext.listed wf.shadowExposed r'
  · exact ext.candidate wf.candidate_lt r'
  · exact congrArg Prod.fst statuses
  · exact congrArg Prod.snd statuses

/-- What a test run relies on beside the exposed iroots stays. -/
structure SameTests (m n : Memo) : Prop where
  failed : ∀ r, (n.content r).failed = (m.content r).failed
  candidate : ∀ r, (n.content r).candidate = (m.content r).candidate
  totalTestRuns : ∀ r, (n.content r).totalTestRuns = (m.content r).totalTestRuns

theorem Wf.observed_spec (wf : m.Wf) (r : IRoot) (shadow : Bool) :
    (∀ r', ((m.observed r shadow).content r').exposed = true ↔
      (m.content r').exposed = true ∨ r' = r ∧ shadow = false) ∧ m.SameTests (m.observed r shadow) := by
  have got := wf.content_getiRootInfo r
  have failed := fun r' => congrArg Entry.failed (got r')
  have candidate := fun r' => congrArg Entry.candidate (got r')
  have totals := fun r' => congrArg Entry.totalTestRuns (got r')
  obtain ⟨-, found, -⟩ := getiRootInfo_spec m.toInfoTable r
  cases shadow with
  | true =>
    refine ⟨fun r' => ?_, ⟨failed, candidate, totals⟩⟩
    have exposed := congrArg Entry.exposed (got r')
    have same : ((m.observed r true).content r').exposed = (m.content r').exposed := exposed
    rw [same]
    exact ⟨Or.inl, fun either => either.resolve_right fun both => nomatch both.2⟩
  | false =>
    refine ⟨fun r' => ?_, ⟨failed, candidate, totals⟩⟩
    have inserted : ((m.observed r false).content r').exposed =
        ((m.getiRootInfo r).1.listed m.exposedSet r' || decide (r = r')) := listed_insert found m.exposedSet r'
    have same : (m.getiRootInfo r).1.listed m.exposedSet r' = (m.content r').exposed := congrArg Entry.exposed (got r')
    rw [inserted, same, Bool.or_eq_true, decide_eq_true_eq]
    exact or_congr Iff.rfl ⟨fun own => ⟨own.symm, rfl⟩, fun both => both.1.symm⟩

theorem Wf.observeds_spec (wf : m.Wf) (calls : List (IRoot × Bool)) : (m.observeds calls).Wf ∧
    (∀ r, ((m.observeds calls).content r).exposed = true ↔ (m.content r).exposed = true ∨ (r, false) ∈ calls) ∧
    m.SameTests (m.observeds calls) := by
  induction calls generalizing m with
  | nil => exact ⟨wf, fun r => by simp [observeds], ⟨fun _ => rfl, fun _ => rfl, fun _ => rfl⟩⟩
  | cons call rest ih =>
    obtain ⟨exposed, same⟩ := wf.observed_spec call.1 call.2
    obtain ⟨kept, exposedLater, later⟩ := ih (wf.observed call.1 call.2)
    refine ⟨kept, fun r => ?_, fun r => (later.failed r).trans (same.failed r),
      fun r => (later.candidate r).trans (same.candidate r),
      fun r => (later.totalTestRuns r).trans (same.totalTestRuns r)⟩
    refine (exposedLater r).trans ?_
    rw [exposed r, or_assoc, List.mem_cons, Prod.ext_iff]
    exact or_congr Iff.rfl (or_congr (and_congr Iff.rfl eq_comm) Iff.rfl)

/-- The verdict of a test counts it for the iroot and for the candidate. -/
theorem countTest_spec {k : ℕ} (candidate : (m.content r).candidate = WithBot.some k) :
    ∃ n i, m.countTest r = some (n, i, (m.content r).totalTestRuns + 1) ∧ n.findiRootInfo r = some i ∧
      n.exposedSet = m.exposedSet ∧ n.failedSet = m.failedSet ∧
      ∀ r', (n.content r').exposed = (m.content r').exposed ∧ (n.content r').failed = (m.content r').failed ∧
        (n.content r').candidate = (if r = r' then WithBot.some (k + 1) else (m.content r').candidate) ∧
        (n.content r').totalTestRuns = (m.content r').totalTestRuns + if r = r' then 1 else 0 := by
  obtain ⟨i, found, stored⟩ := candidate_eq_some.mp candidate
  obtain ⟨info, listed, _, recorded⟩ := exists_record found
  have total : (m.content r).totalTestRuns = info.totalTestRuns := by simp [content, status, recorded]
  have got := getiRootInfo_of_some found
  let n : Memo := { m with
    toInfoTable := m.setTotalTestRuns i (info.totalTestRuns + 1)
    candidateMap := m.candidateMap.insert i (k + 1) }
  refine ⟨n, i, ?_, found, rfl, rfl, fun r' => ⟨rfl, rfl, candidate_insert found m.candidateMap (k + 1) r', ?_⟩⟩
  · simp only [countTest, got, stored, listed, total, Option.bind_eq_bind, Option.bind_some, Option.pure_def, n]
  · have runs := congrArg Prod.fst (status_setTotalTestRuns found (info.totalTestRuns + 1) r')
    refine Eq.trans runs ?_
    by_cases same : r = r'
    · subst same
      rw [if_pos rfl, if_pos rfl, total]
    · rw [if_neg same, if_neg same]
      rfl

/-- `TestSuccess` and `TestFail` go through on a candidate. -/
theorem Wf.verdict_spec (wf : m.Wf) {k : ℕ} (candidate : (m.content r).candidate = WithBot.some k) (success : Bool) :
    ∃ n, (if success then m.testSuccess r else m.testFail r) = some n ∧ n.Wf ∧
      (∀ r', (n.content r').exposed = true ↔ (m.content r').exposed = true ∨ success = true ∧ r' = r) ∧
      (∀ r', (n.content r').failed = true ↔ (m.content r').failed = true ∨
        success = false ∧ r' = r ∧ totalFailedLimit ≤ (m.content r).totalTestRuns + 1) ∧
      ∀ r', (n.content r').candidate = (if r = r' then WithBot.some (k + 1) else (m.content r').candidate) ∧
        (n.content r').totalTestRuns = (m.content r').totalTestRuns + if r = r' then 1 else 0 := by
  obtain ⟨n, i, counted, found, exposed, failed, contents⟩ := countTest_spec candidate
  obtain ⟨kept, bound⟩ := wf.countTest counted
  cases success with
  | true =>
    refine ⟨{ n with exposedSet := n.exposedSet.insert i }, ?_, kept.insertExposed bound, fun r' => ?_, fun r' => ?_,
      fun r' => (contents r').2.2⟩
    · simp [Memo.testSuccess, counted]
    · have inserted := listed_insert found n.exposedSet r'
      have same : n.listed n.exposedSet r' = (m.content r').exposed := (contents r').1
      refine (congrArg (· = true) inserted).to_iff.trans ?_
      rw [same, Bool.or_eq_true, decide_eq_true_eq]
      exact or_congr Iff.rfl ⟨fun own => ⟨rfl, own.symm⟩, fun both => both.2.symm⟩
    · have same : (n.content r').failed = (m.content r').failed := (contents r').2.1
      simp only [Bool.true_eq_false, false_and, or_false]
      exact (congrArg (· = true) same).to_iff
  | false =>
    have exposes : ∀ r', (n.content r').exposed = true ↔ (m.content r').exposed = true ∨ false = true ∧ r' = r := by
      intro r'
      rw [(contents r').1]
      simp
    by_cases enough : totalFailedLimit ≤ (m.content r).totalTestRuns + 1
    · refine ⟨{ n with failedSet := n.failedSet.insert i }, ?_, { kept with failed := valid_insert kept.failed bound },
        exposes, fun r' => ?_, fun r' => (contents r').2.2⟩
      · simp [Memo.testFail, counted, enough]
      · have inserted := listed_insert found n.failedSet r'
        have same : n.listed n.failedSet r' = (m.content r').failed := (contents r').2.1
        refine (congrArg (· = true) inserted).to_iff.trans ?_
        rw [same, Bool.or_eq_true, decide_eq_true_eq]
        exact or_congr Iff.rfl ⟨fun own => ⟨rfl, own.symm, enough⟩, fun all => all.2.1.symm⟩
    · refine ⟨n, ?_, kept, exposes, fun r' => ?_, fun r' => (contents r').2.2⟩
      · simp [Memo.testFail, counted, enough]
      · rw [(contents r').2.1]
        simp [enough]

/-- What `RefineCandidate` leaves. -/
theorem refined_iff {memoFailed : Bool} {k : ℕ} :
    ((m.refineCandidate memoFailed).content r).candidate = WithBot.some k ↔
      (m.content r).candidate = WithBot.some k ∧ k < failedLimit ∧ (m.content r).exposed = false ∧
        (memoFailed = true → (m.content r).failed = false) := by
  have listed_false : ∀ {i : Info} {set : InfoSet}, m.findiRootInfo r = some i →
      (m.listed set r = false ↔ i ∉ set) := by
    intro i set found
    rw [listed, found, Option.any_some, ← Bool.not_eq_true, Std.ExtTreeSet.mem_iff_contains]
  constructor
  · intro left
    obtain ⟨i, found, stored⟩ := candidate_eq_some.mp left
    obtain ⟨old, few, unexposed, unfailed⟩ := refineCandidate_iff.mp stored
    exact ⟨candidate_eq_some.mpr ⟨i, found, old⟩, few, (listed_false found).mpr unexposed,
      fun knob => (listed_false found).mpr (unfailed knob)⟩
  · rintro ⟨old, few, unexposed, unfailed⟩
    obtain ⟨i, found, stored⟩ := candidate_eq_some.mp old
    exact candidate_eq_some.mpr ⟨i, found, refineCandidate_iff.mpr ⟨stored, few, (listed_false found).mp unexposed,
      fun knob => (listed_false found).mp (unfailed knob)⟩⟩

/-- The memo against the iroots tested so far, from a memo whose candidates are new. -/
structure Ledger (first : Memo) (tested : List IRoot) (m : Memo) : Prop where
  wf : m.Wf
  counted : ∀ r (k : ℕ), (m.content r).candidate = WithBot.some k →
    (first.content r).candidate ≠ ⊥ ∧ k = tested.count r ∧ k < failedLimit
  settled : ∀ r, (first.content r).candidate ≠ ⊥ → (m.content r).candidate = ⊥ →
    (m.content r).exposed = true ∨ tested.count r = failedLimit
  limited : ∀ r, tested.count r ≤ failedLimit
  candidates : ∀ r ∈ tested, (first.content r).candidate ≠ ⊥
  unfailed : ∀ r, (m.content r).failed = false
  totals : ∀ r, (m.content r).totalTestRuns = tested.count r
  refined : tested ≠ [] → ∀ r, (m.content r).candidate ≠ ⊥ → (m.content r).exposed = false

variable {first : Memo} {tested : List IRoot}

theorem count_append_self (tested : List IRoot) (r r' : IRoot) :
    (tested ++ [r]).count r' = tested.count r' + if r = r' then 1 else 0 := by
  rw [List.count_append, List.count_singleton]
  simp

/-- A run on a memo tests a candidate and leaves a memo that says so. -/
theorem Ledger.step (ledger : Ledger first tested m) (chosen : m.chooseForTest db = some r) (run : TestRun) :
    ∃ n, m.testRun db run = some (n, r) ∧ Ledger first (tested ++ [r]) n ∧
      ∀ r', (m.content r').exposed = true ∨ (r', false) ∈ run.before ++ run.after ∨ run.success = true ∧ r' = r →
        (n.content r').exposed = true := by
  obtain ⟨k, candidate⟩ := chooseForTest_candidate chosen
  obtain ⟨initial, count, few⟩ := ledger.counted r k candidate
  obtain ⟨wf₁, exposed₁, same₁⟩ := ledger.wf.observeds_spec run.before
  obtain ⟨m₂, judged, wf₂, exposed₂, failed₂, tests₂⟩ :=
    wf₁.verdict_spec ((same₁.candidate r).trans candidate) run.success
  obtain ⟨wf₃, exposed₃, same₃⟩ := wf₂.observeds_spec run.after
  let m₃ := m₂.observeds run.after
  let n := m₃.refineCandidate run.memoFailed
  have exposes : ∀ r', (m₃.content r').exposed = true ↔ (m.content r').exposed = true ∨
      (r', false) ∈ run.before ++ run.after ∨ run.success = true ∧ r' = r := by
    intro r'
    rw [exposed₃ r', exposed₂ r', exposed₁ r', List.mem_append]
    tauto
  have tests : ∀ r', (m₃.content r').candidate =
      if r = r' then WithBot.some (k + 1) else (m.content r').candidate := by
    intro r'
    rw [same₃.candidate r', (tests₂ r').1, same₁.candidate r']
  have totals : ∀ r', (m₃.content r').totalTestRuns = (tested ++ [r]).count r' := by
    intro r'
    rw [same₃.totalTestRuns r', (tests₂ r').2, same₁.totalTestRuns r', ledger.totals r', count_append_self]
  have unfailed : ∀ r', (m₃.content r').failed = false := by
    intro r'
    rw [same₃.failed r', ← Bool.not_eq_true, failed₂ r', same₁.failed r', ledger.unfailed r',
      same₁.totalTestRuns r, ledger.totals r, ← count]
    rintro (impossible | ⟨-, -, many⟩)
    · exact nomatch impossible
    · have bound : k + 1 ≤ failedLimit := few
      exact absurd (Nat.le_trans many bound) (by decide)
  have left : ∀ r' (k' : ℕ), (n.content r').candidate = WithBot.some k' ↔
      (m₃.content r').candidate = WithBot.some k' ∧ k' < failedLimit ∧ (m₃.content r').exposed = false := by
    intro r' k'
    exact refined_iff.trans (and_congr Iff.rfl (and_congr Iff.rfl
      ⟨fun both => both.1, fun unexposed => ⟨unexposed, fun _ => unfailed r'⟩⟩))
  refine ⟨n, ?_, ⟨wf₃.refineCandidate run.memoFailed, ?_, ?_, ?_, ?_, unfailed, totals, ?_⟩,
    fun r' either => (exposes r').mpr either⟩
  · cases verdict : run.success with
    | true =>
      simp only [verdict, if_true] at judged
      simp [Memo.testRun, chosen, verdict, judged, n, m₃]
    | false =>
      simp only [verdict, Bool.false_eq_true, if_false] at judged
      simp [Memo.testRun, chosen, verdict, judged, n, m₃]
  · intro r' k' still
    obtain ⟨before, limit, -⟩ := (left r' k').mp still
    rw [tests r'] at before
    rw [count_append_self]
    split at before
    · next same =>
      subst same
      have counts : k + 1 = k' := WithBot.coe_injective before
      rw [if_pos rfl, ← count]
      exact ⟨initial, counts.symm, limit⟩
    · next other =>
      rw [if_neg other]
      exact ⟨(ledger.counted r' k' before).1, (ledger.counted r' k' before).2.1, limit⟩
  · intro r' member gone
    by_cases shown : (m₃.content r').exposed = true
    · exact Or.inl shown
    have full : ∀ k' : ℕ, (m₃.content r').candidate = WithBot.some k' → failedLimit ≤ k' := by
      intro k' there
      by_contra below
      have stays := (left r' k').mpr ⟨there, Nat.not_le.mp below, by simpa using shown⟩
      rw [gone] at stays
      exact WithBot.bot_ne_coe stays
    rw [count_append_self]
    by_cases same : r = r'
    · subst same
      have enough := full (k + 1) (by rw [tests, if_pos rfl])
      rw [if_pos rfl, ← count]
      exact Or.inr (Nat.le_antisymm few enough)
    · rw [if_neg same]
      cases before : (m.content r').candidate with
      | bot =>
        refine (ledger.settled r' member before).imp_left fun already => ?_
        exact (exposes r').mpr (Or.inl already)
      | coe k' =>
        have enough := full k' (by rw [tests, if_neg same, before])
        exact absurd (ledger.counted r' k' before).2.2 (Nat.not_lt.mpr enough)
  · intro r'
    rw [count_append_self]
    split
    · next same =>
      subst same
      rw [← count]
      exact few
    · exact ledger.limited r'
  · intro r' member
    rcases List.mem_append.mp member with before | now
    · exact ledger.candidates r' before
    · rw [List.mem_singleton.mp now]
      exact initial
  · intro _ r' still
    obtain ⟨k', same⟩ := WithBot.ne_bot_iff_exists.mp still
    exact ((left r' k').mp same.symm).2.2

/-- `Predicted` adds at most a candidate without test runs. -/
theorem Wf.predicted_content (wf : m.Wf) (done : m.predicted r = some n) :
    (∀ r' (k : ℕ), (n.content r').candidate = WithBot.some k → (m.content r').candidate = WithBot.some k ∨ k = 0) ∧
      (∀ r', (n.content r').failed = (m.content r').failed) ∧
      ∀ r', (n.content r').totalTestRuns = (m.content r').totalTestRuns := by
  have got := wf.content_getiRootInfo r
  obtain ⟨-, found, -⟩ := getiRootInfo_spec m.toInfoTable r
  have failed := fun r' => congrArg Entry.failed (got r')
  have candidate := fun r' => congrArg Entry.candidate (got r')
  have totals := fun r' => congrArg Entry.totalTestRuns (got r')
  by_cases old : m.predictedSet.contains (m.getiRootInfo r).2
  · simp only [Memo.predicted, old, if_true, Option.pure_def, Option.some.injEq] at done
    subst done
    exact ⟨fun r' k same => Or.inl ((candidate r').symm.trans same), failed, totals⟩
  · simp only [Memo.predicted, old, Bool.false_eq_true, if_false, Option.bind_eq_bind, Option.bind_eq_some_iff,
      Option.pure_def, Option.some.injEq] at done
    obtain ⟨_, _, rfl⟩ := done
    refine ⟨fun r' k same => ?_, failed, totals⟩
    have inserted := (candidate_insert found m.candidateMap 0 r').symm.trans same
    split at inserted
    · exact Or.inr (WithBot.coe_injective inserted).symm
    · exact Or.inl ((candidate r').symm.trans inserted)

/-- A memo of the profiler, before any test. -/
structure Untested (m : Memo) : Prop where
  wf : m.Wf
  candidate : ∀ r (k : ℕ), (m.content r).candidate = WithBot.some k → k = 0
  unfailed : ∀ r, (m.content r).failed = false
  totals : ∀ r, (m.content r).totalTestRuns = 0

theorem untested_empty : Memo.empty.Untested where
  wf := wf_empty
  candidate r k same := by
    have none_ : InfoTable.empty.candidate ∅ r = WithBot.some k := same
    obtain ⟨i, found, -⟩ := candidate_eq_some.mp none_
    simp [InfoTable.empty, findiRootInfo] at found
  unfailed r := by simp [content, listed, Memo.empty, InfoTable.empty, findiRootInfo]
  totals r := by simp [content, status, record, Memo.empty, InfoTable.empty, findiRootInfo]

theorem Untested.profile (untested : m.Untested) (call : ProfileCall) : ∃ n, m.profile call = some n ∧ n.Untested := by
  cases call with
  | predicted r =>
    obtain ⟨n, done, wf⟩ := untested.wf.predicted_spec r
    obtain ⟨candidate, failed, totals⟩ := untested.wf.predicted_content done
    refine ⟨n, done, wf, fun r' k same => ?_, fun r' => (failed r').trans (untested.unfailed r'),
      fun r' => (totals r').trans (untested.totals r')⟩
    exact (candidate r' k same).elim (untested.candidate r' k) id
  | observed r shadow =>
    obtain ⟨-, same⟩ := untested.wf.observed_spec r shadow
    exact ⟨_, rfl, untested.wf.observed r shadow,
      fun r' k there => untested.candidate r' k ((same.candidate r').symm.trans there),
      fun r' => (same.failed r').trans (untested.unfailed r'),
      fun r' => (same.totalTestRuns r').trans (untested.totals r')⟩

theorem Untested.ledger (untested : m.Untested) : Ledger m [] m where
  wf := untested.wf
  counted r k same := by
    obtain rfl := untested.candidate r k same
    exact ⟨by rw [same]; exact WithBot.coe_ne_bot, rfl, by decide⟩
  settled r some_ none_ := absurd none_ some_
  limited r := Nat.zero_le _
  candidates r member := nomatch member
  unfailed := untested.unfailed
  totals := untested.totals
  refined nonempty := absurd rfl nonempty

/-- A list with few copies of each member of another list is not much longer. -/
theorem length_le_of_count {tested candidates : List IRoot} {limit : ℕ} (members : ∀ r ∈ tested, r ∈ candidates)
    (limited : ∀ r, tested.count r ≤ limit) : tested.length ≤ limit * candidates.length := by
  induction candidates generalizing tested with
  | nil =>
    have empty : tested = [] := List.eq_nil_iff_forall_not_mem.mpr fun r member => nomatch members r member
    simp [empty]
  | cons c rest ih =>
    have fewer : (tested.filter (· ≠ c)).length ≤ limit * rest.length := ih (fun r member => by
        obtain ⟨inside, other⟩ := List.mem_filter.mp member
        exact (List.mem_cons.mp (members r inside)).resolve_left (by simpa using other))
      (fun r => (List.filter_sublist.count_le r).trans (limited r))
    have parts := List.length_eq_countP_add_countP (· = c) (l := tested)
    have own : tested.countP (· = c) = tested.count c := by
      rw [List.count]
      exact List.countP_congr fun r _ => by simp
    rw [List.countP_eq_length_filter (p := fun r => decide ¬ decide (r = c) = true)] at parts
    simp only [decide_eq_true_eq] at parts
    rw [List.length_cons, Nat.mul_succ, parts, own, Nat.add_comm]
    exact Nat.add_le_add fewer (limited c)

/-- The iroots of the candidates. -/
theorem exists_candidates (m : Memo) : ∃ candidates : List IRoot, candidates.length ≤ m.totalCandidate ∧
    ∀ r, (m.content r).candidate ≠ ⊥ → r ∈ candidates := by
  refine ⟨m.candidateMap.toList.filterMap fun entry => m.saveInfo entry.1, ?_, fun r candidate => ?_⟩
  · exact (List.length_filterMap_le _ _).trans (Nat.le_of_eq Std.ExtTreeMap.length_toList)
  · obtain ⟨k, same⟩ := WithBot.ne_bot_iff_exists.mp candidate
    obtain ⟨i, found, stored⟩ := candidate_eq_some.mp same.symm
    exact List.mem_filterMap.mpr ⟨(i, k), Std.ExtTreeMap.mem_toList_iff_getElem?_eq_some.mpr stored,
      (m.indexed r i).mp found⟩

theorem Ledger.bounded (ledger : Ledger first tested m) : tested.length ≤ failedLimit * first.totalCandidate := by
  obtain ⟨candidates, short, all⟩ := exists_candidates first
  have bound := length_le_of_count (fun r member => all r (ledger.candidates r member)) ledger.limited
  exact bound.trans (Nat.mul_le_mul_left _ short)

end Memo

/-- The file after some runs: `tested` are the iroots that they chose. -/
structure WorksOff (db : IRootFacts) (first m : Memo) (proto : MemoProto) (tested : List IRoot) : Prop where
  loads : Memo.load proto = some m
  /-- The chosen iroot is a candidate, not an exposed one behind the first run, and is tested. -/
  chosen : ∀ r, m.chooseForTest db = some r → (m.content r).candidate ≠ ⊥ ∧
    (tested ≠ [] → (m.content r).exposed = false) ∧ ∀ run, ∃ next, testRun db proto run = some (next, r)
  /-- What a run exposes stays exposed. -/
  exposes : ∀ run next r, testRun db proto run = some (next, r) → ∃ n, Memo.load next = some n ∧
    ∀ r', (m.content r').exposed = true ∨ (r', false) ∈ run.before ++ run.after ∨ run.success = true ∧ r' = r →
      (n.content r').exposed = true
  limited : ∀ r, tested.count r ≤ Memo.failedLimit
  bounded : tested.length ≤ Memo.failedLimit * first.totalCandidate
  finished : m.chooseForTest db = none → ∀ r, (first.content r).candidate ≠ ⊥ →
    (m.content r).exposed = true ∨ tested.count r = Memo.failedLimit

namespace Memo
variable {first m : Memo} {db : IRootFacts} {tested : List IRoot} {proto : MemoProto}

/-- The same step on the file. -/
theorem Ledger.testRun (ledger : Ledger first tested m) (loads : load proto = some m) {r : IRoot}
    (chosen : m.chooseForTest db = some r) (run : TestRun) :
    ∃ next n, Idiom.testRun db proto run = some (next, r) ∧ load next = some n ∧ Ledger first (tested ++ [r]) n ∧
      ∀ r', (m.content r').exposed = true ∨ (r', false) ∈ run.before ++ run.after ∨ run.success = true ∧ r' = r →
        (n.content r').exposed = true := by
  obtain ⟨n, ran, kept, exposes⟩ := ledger.step chosen run
  obtain ⟨next, saved, reloads⟩ := kept.wf.load_save
  exact ⟨next, n, by simp [Idiom.testRun, loads, ran, saved], reloads, kept, exposes⟩

theorem chosen_of_testRun {next : MemoProto} {r : IRoot} {run : TestRun} (loads : load proto = some m)
    (ran : Idiom.testRun db proto run = some (next, r)) : m.chooseForTest db = some r := by
  simp only [Idiom.testRun, loads, Memo.testRun, Option.bind_eq_bind, Option.bind_some, Option.bind_eq_some_iff,
    Option.pure_def, Option.some.injEq, Prod.mk.injEq] at ran
  obtain ⟨⟨n, r'⟩, ⟨chosen, found, tested⟩, proto', saved, -, rfl⟩ := ran
  split at tested
  · obtain ⟨_, _, same⟩ := Option.bind_eq_some_iff.mp tested
    cases same
    exact found
  · obtain ⟨_, _, same⟩ := Option.bind_eq_some_iff.mp tested
    cases same
    exact found

theorem Ledger.worksOff (ledger : Ledger first tested m) (loads : load proto = some m) :
    WorksOff db first m proto tested where
  loads := loads
  chosen r chosen := by
    obtain ⟨k, candidate⟩ := chooseForTest_candidate chosen
    have left : (m.content r).candidate ≠ ⊥ := by
      rw [candidate]
      exact WithBot.coe_ne_bot
    refine ⟨left, fun later => ledger.refined later r left, fun run => ?_⟩
    obtain ⟨next, _, ran, -⟩ := ledger.testRun loads chosen run
    exact ⟨next, ran⟩
  exposes run next r ran := by
    obtain ⟨next', n, ran', reloads, -, exposes⟩ := ledger.testRun loads (chosen_of_testRun loads ran) run
    cases ran.symm.trans ran'
    exact ⟨n, reloads, exposes⟩
  limited := ledger.limited
  bounded := ledger.bounded
  finished none_ r candidate := ledger.settled r candidate (chooseForTest_none none_ r)

theorem Ledger.run (ledger : Ledger first tested m) (loads : load proto = some m) {runs : List TestRun}
    {last : MemoProto} {outs : List IRoot} (ran : Runs.run (Idiom.testRun db) proto runs = some (last, outs)) :
    ∃ n, load last = some n ∧ Ledger first (tested ++ outs) n ∧ outs.length = runs.length := by
  induction runs generalizing proto m tested outs with
  | nil =>
    cases ran
    exact ⟨m, loads, by rwa [List.append_nil], rfl⟩
  | cons run rest ih =>
    obtain ⟨middle, r, later, stepped, continued, rfl⟩ := Runs.run_cons_inv ran
    obtain ⟨middle', n, stepped', reloads, kept, -⟩ := ledger.testRun loads (chosen_of_testRun loads stepped) run
    cases stepped.symm.trans stepped'
    obtain ⟨last, finally_, done, sizes⟩ := ih kept reloads continued
    exact ⟨last, finally_, by rwa [List.append_assoc] at done, by rw [List.length_cons, List.length_cons, sizes]⟩

end Memo

/-- From the memo of a profiling run, test runs work the candidates off: what they choose is
a candidate, no iroot is chosen more often than the limit or again after it was exposed,
and within the limit times the number of candidates there is nothing left to test. -/
theorem testing_works_off (db : IRootFacts) (calls : List ProfileCall) :
    ∃ first proto, calls.foldlM Memo.profile .empty = some first ∧ first.save = some proto ∧
      (∀ runs last tested, Runs.run (testRun db) proto runs = some (last, tested) →
        ∃ m, WorksOff db first m last tested) ∧
      ∀ runs : ℕ → TestRun, ∃ n ≤ Memo.failedLimit * first.totalCandidate, ∃ last tested m,
        Runs.run (testRun db) proto ((List.range n).map runs) = some (last, tested) ∧ Memo.load last = some m ∧
          m.chooseForTest db = none := by
  obtain ⟨first, profiled, untested⟩ := Runs.foldlM_invariant (fun _ m => m.Untested) calls
    (fun _ m call _ untested => untested.profile call) Memo.empty Memo.untested_empty
  obtain ⟨proto, saved, loads⟩ := untested.wf.load_save
  have ledger := untested.ledger
  have ledgers : ∀ runs last tested, Runs.run (testRun db) proto runs = some (last, tested) →
      ∃ m, Memo.load last = some m ∧ Memo.Ledger first tested m ∧ tested.length = runs.length := by
    intro runs last tested ran
    obtain ⟨m, reloads, kept, sizes⟩ := ledger.run loads ran
    exact ⟨m, reloads, by rwa [List.nil_append] at kept, sizes⟩
  refine ⟨first, proto, profiled, saved, fun runs last tested ran => ?_, fun runs => ?_⟩
  · obtain ⟨m, reloads, kept, -⟩ := ledgers runs last tested ran
    exact ⟨m, kept.worksOff reloads⟩
  -- either the runs have ended or one more goes through
  have either : ∀ n, (∃ j < n, ∃ last tested m, Runs.run (testRun db) proto ((List.range j).map runs) =
      some (last, tested) ∧ Memo.load last = some m ∧ m.chooseForTest db = none) ∨
      ∃ last tested, Runs.run (testRun db) proto ((List.range n).map runs) = some (last, tested) := by
    intro n
    induction n with
    | zero => exact Or.inr ⟨proto, [], rfl⟩
    | succ n ih =>
      rcases ih with ⟨j, before, ended⟩ | ⟨last, tested, ran⟩
      · exact Or.inl ⟨j, Nat.lt_succ_of_lt before, ended⟩
      · obtain ⟨m, reloads, kept, -⟩ := ledgers _ last tested ran
        cases chosen : m.chooseForTest db with
        | none => exact Or.inl ⟨n, Nat.lt_succ_self n, last, tested, m, ran, reloads, chosen⟩
        | some r =>
          obtain ⟨next, _, stepped, -⟩ := kept.testRun reloads chosen (runs n)
          refine Or.inr ⟨next, tested ++ [r], ?_⟩
          rw [List.range_succ, List.map_append]
          exact Runs.run_append ran (Runs.run_cons stepped rfl)
  rcases either (Memo.failedLimit * first.totalCandidate + 1) with ⟨j, before, ended⟩ | ⟨last, tested, ran⟩
  · exact ⟨j, Nat.le_of_lt_succ before, ended⟩
  · obtain ⟨m, -, kept, sizes⟩ := ledgers _ last tested ran
    have bound := kept.bounded
    rw [sizes, List.length_map, List.length_range] at bound
    exact absurd bound (Nat.not_succ_le_self _)

end Maple.Idiom
