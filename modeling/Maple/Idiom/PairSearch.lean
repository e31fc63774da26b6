import Maple.Idiom.PredictorNew

/-! What the search for dependencies finds. The clocks of one summary are ordered, so
the scan of `CheckConcurrent` may stop at the first one that is in the past. -/
namespace Maple.Idiom

def Incomparable (v w : VectorClock) : Prop := v.happensBefore w = false ∧ w.happensBefore v = false

theorem Incomparable.symm {v w : VectorClock} (apart : Incomparable v w) : Incomparable w v := ⟨apart.2, apart.1⟩

def AccSum.clocks (a : AccSum) : List VectorClock := a.tinfo.map Prod.fst

theorem concurrentLoop_iff {vc : VectorClock} {entries : List (VectorClock × ThdClkInfo)}
    (ordered : entries.Pairwise fun e f => f.1.happensBefore e.1 = true) :
    concurrentLoop vc entries = true ↔ ∃ e ∈ entries, Incomparable e.1 vc := by
  induction entries with
  | nil => simp [concurrentLoop]
  | cons e older ih =>
    obtain ⟨above, ordered⟩ := List.pairwise_cons.mp ordered
    rw [concurrentLoop, List.exists_mem_cons_iff]
    split
    · next past =>
        -- All older clocks are in the past, too.
        refine ⟨nofun, ?_⟩
        rintro (apart | ⟨f, member, apart⟩)
        · exact nomatch past.symm.trans apart.1
        · exact nomatch (VectorClock.happensBefore_trans (above f member) past).symm.trans apart.1
    · next past =>
        split
        · next future =>
            rw [Bool.not_eq_true'] at future
            exact ⟨fun _ => Or.inl ⟨Bool.eq_false_iff.mpr past, future⟩, fun _ => rfl⟩
        · next future =>
            rw [Bool.not_eq_true', Bool.not_eq_false] at future
            rw [ih ordered]
            refine ⟨Or.inr, ?_⟩
            rintro (apart | later)
            · exact nomatch future.symm.trans apart.2
            · exact later

theorem checkConcurrent_iff {vc : VectorClock} {rmt : AccSum}
    (ordered : rmt.clocks.Pairwise fun v w => v.happensBefore w = true) :
    checkConcurrent vc rmt = true ↔ ∃ v ∈ rmt.clocks, Incomparable v vc := by
  rw [checkConcurrent, concurrentLoop_iff (List.pairwise_reverse.mpr (List.pairwise_map.mp ordered)), AccSum.clocks]
  simp only [List.mem_reverse, List.mem_map, exists_exists_and_eq_and]

/-- No pair is recorded twice, and both indices hold the same pairs. -/
structure PairIndex.Wf (ix : PairIndex) : Prop where
  succNodup : ∀ s, (ix.succOf s).Nodup
  predNodup : ∀ d, (ix.predOf d).Nodup
  mirrored : ∀ s d, s ∈ ix.predOf d ↔ d ∈ ix.succOf s

namespace PairIndex
variable {ix : PairIndex} {src dst : ℕ}

theorem existAccSumPair_iff : ix.existAccSumPair src dst = true ↔ dst ∈ ix.succOf src := by
  simp [existAccSumPair]

theorem succOf_add (s : ℕ) :
    (ix.addAccSumPair src dst).succOf s = if src = s then ix.succOf src ++ [dst] else ix.succOf s := by
  simp only [addAccSumPair, succOf, Std.ExtTreeMap.getElem?_insert, Nat.compare_eq_eq]
  split <;> rfl

theorem predOf_add (d : ℕ) :
    (ix.addAccSumPair src dst).predOf d = if dst = d then ix.predOf dst ++ [src] else ix.predOf d := by
  simp only [addAccSumPair, predOf, Std.ExtTreeMap.getElem?_insert, Nat.compare_eq_eq]
  split <;> rfl

theorem mem_succOf_add {s d : ℕ} :
    d ∈ (ix.addAccSumPair src dst).succOf s ↔ d ∈ ix.succOf s ∨ s = src ∧ d = dst := by
  rw [succOf_add]
  split
  · next same => simp [same]
  · next other => simp [Ne.symm other]

theorem Wf.add (wf : ix.Wf) (new : dst ∉ ix.succOf src) : (ix.addAccSumPair src dst).Wf where
  succNodup s := by
    rw [succOf_add]
    split
    · exact List.nodup_append.mpr ⟨wf.succNodup src, List.nodup_singleton dst, fun d member d' single same =>
        new (by rwa [← List.mem_singleton.mp single, ← same])⟩
    · exact wf.succNodup s
  predNodup d := by
    rw [predOf_add]
    split
    · exact List.nodup_append.mpr ⟨wf.predNodup dst, List.nodup_singleton src, fun s member s' single same =>
        new ((wf.mirrored src dst).mp (by rwa [← List.mem_singleton.mp single, ← same]))⟩
    · exact wf.predNodup d
  mirrored s d := by
    rw [mem_succOf_add, predOf_add, ← wf.mirrored]
    split
    · next same => simp [same]
    · next other => simp [Ne.symm other]

end PairIndex

/-- The checks that depend on the two summaries alone. -/
def Accepts (atomicInstSet : InstId → Bool) (src dst : AccSum) : Prop :=
  checkConflict src.type dst.type = true ∧ checkMutexExclution src.fls dst.fls = true ∧
    checkAtomic atomicInstSet src dst = true

namespace PredictorNew
variable {p : PredictorNew} {ix : PairIndex}

theorem predict_spec (atomicInstSet : InstId → Bool) (vc : VectorClock) (wf : ix.Wf) (rmt : AccSum) (src dst : ℕ × AccSum) :
    (predict atomicInstSet vc rmt ix src dst).Wf ∧
      ∀ s d, d ∈ (predict atomicInstSet vc rmt ix src dst).succOf s ↔ d ∈ ix.succOf s ∨
        s = src.1 ∧ d = dst.1 ∧ Accepts atomicInstSet src.2 dst.2 ∧ checkConcurrent vc rmt = true := by
  unfold predict
  split
  · next passed =>
      simp only [Bool.and_eq_true, Bool.not_eq_true', Bool.eq_false_iff, ne_eq, PairIndex.existAccSumPair_iff] at passed
      obtain ⟨⟨⟨⟨conflict, new⟩, exclusion⟩, concurrent⟩, atomic⟩ := passed
      refine ⟨wf.add new, fun s d => ?_⟩
      rw [PairIndex.mem_succOf_add]
      exact or_congr_right (and_congr_right fun _ =>
        (and_iff_left ⟨⟨conflict, exclusion, atomic⟩, concurrent⟩).symm)
  · next failed =>
      refine ⟨wf, fun s d => (or_iff_left_of_imp ?_).symm⟩
      rintro ⟨rfl, rfl, ⟨conflict, exclusion, atomic⟩, concurrent⟩
      by_contra new
      simp [conflict, exclusion, atomic, concurrent, PairIndex.existAccSumPair, new] at failed

/-- A pair that one round of the search finds. -/
def Finds (atomicInstSet : InstId → Bool) (p : PredictorNew) (vc : VectorClock) (curr : ℕ) (currAccSum : AccSum)
    (rmt s d : ℕ) : Prop :=
  ∃ rmtAccSum, p.accSums[rmt]? = some rmtAccSum ∧ checkConcurrent vc rmtAccSum = true ∧
    (s = rmt ∧ d = curr ∧ Accepts atomicInstSet rmtAccSum currAccSum ∨
      s = curr ∧ d = rmt ∧ Accepts atomicInstSet currAccSum rmtAccSum)

theorem searchStep_spec (atomicInstSet : InstId → Bool) (vc : VectorClock) {curr rmt : ℕ}
    {currAccSum rmtAccSum : AccSum} (wf : ix.Wf)
    (found : p.accSums[curr]? = some currAccSum) (foundRmt : p.accSums[rmt]? = some rmtAccSum)
    (same : currAccSum.metaId = rmtAccSum.metaId) :
    ∃ next, p.searchStep atomicInstSet vc curr ix rmt = some next ∧ next.Wf ∧
      ∀ s d, d ∈ next.succOf s ↔ d ∈ ix.succOf s ∨ p.Finds atomicInstSet vc curr currAccSum rmt s d := by
  obtain ⟨wf, before⟩ := predict_spec atomicInstSet vc wf rmtAccSum (rmt, rmtAccSum)
    (curr, currAccSum)
  obtain ⟨wf, after⟩ := predict_spec atomicInstSet vc wf rmtAccSum (curr, currAccSum)
    (rmt, rmtAccSum)
  refine ⟨_, by simp only [searchStep, found, foundRmt, debugAssert_pos same, Option.bind_eq_bind, Option.bind_some]; rfl,
    wf, fun s d => ?_⟩
  rw [after, before, or_assoc]
  apply or_congr_right
  constructor
  · rintro (⟨first, second, accepts, concurrent⟩ | ⟨first, second, accepts, concurrent⟩)
    · exact ⟨rmtAccSum, foundRmt, concurrent, Or.inl ⟨first, second, accepts⟩⟩
    · exact ⟨rmtAccSum, foundRmt, concurrent, Or.inr ⟨first, second, accepts⟩⟩
  · rintro ⟨other, foundOther, concurrent, either⟩
    cases foundRmt.symm.trans foundOther
    rcases either with ⟨first, second, accepts⟩ | ⟨first, second, accepts⟩
    · exact Or.inl ⟨first, second, accepts, concurrent⟩
    · exact Or.inr ⟨first, second, accepts, concurrent⟩

/-- The loop over the summaries of other threads. -/
theorem searchLoop_spec (atomicInstSet : InstId → Bool) (vc : VectorClock) {curr : ℕ} {currAccSum : AccSum}
    {rmts : List ℕ} (wf : ix.Wf)
    (found : p.accSums[curr]? = some currAccSum)
    (remote : ∀ rmt ∈ rmts, ∃ rmtAccSum, p.accSums[rmt]? = some rmtAccSum ∧ currAccSum.metaId = rmtAccSum.metaId) :
    ∃ next, rmts.foldlM (p.searchStep atomicInstSet vc curr) ix = some next ∧ next.Wf ∧
      ∀ s d, d ∈ next.succOf s ↔ d ∈ ix.succOf s ∨
        ∃ rmt ∈ rmts, p.Finds atomicInstSet vc curr currAccSum rmt s d := by
  induction rmts generalizing ix with
  | nil => exact ⟨ix, rfl, wf, by simp⟩
  | cons rmt rmts ih =>
    obtain ⟨⟨rmtAccSum, foundRmt, same⟩, others⟩ := List.forall_mem_cons.mp remote
    obtain ⟨middle, stepped, wf, first⟩ := searchStep_spec atomicInstSet vc wf found foundRmt same
    obtain ⟨next, ran, wf, rest⟩ := ih wf others
    refine ⟨next, by rw [List.foldlM_cons, stepped]; exact ran, wf, fun s d => ?_⟩
    rw [rest, first, or_assoc, List.exists_mem_cons_iff]

end PredictorNew
end Maple.Idiom
