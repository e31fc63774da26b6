import Maple.Idiom.Summaries
import Maple.Idiom.PairUpdate

/-! Accesses of one thread, in segments of equal clock: what the clocks of a summary keep of its
accesses, and the first and last summary of a segment. -/
namespace Maple.Idiom
variable {tinfo : List (VectorClock × ThdClkInfo)} {accs : List (VectorClock × ℕ)} {acc : VectorClock × ℕ}

/-- A later access of the same thread. -/
def NotAfter (acc later : VectorClock × ℕ) : Prop := acc.1.happensBefore later.1 = true

/-- One entry for each segment, in order. -/
structure Compressed (tinfo : List (VectorClock × ThdClkInfo)) (accs : List (VectorClock × ℕ)) : Prop where
  values : ∀ v, v ∈ tinfo.map Prod.fst ↔ v ∈ accs.map Prod.fst
  increasing : tinfo.Pairwise fun e f => e.1.happensBefore f.1 = true ∧ e.1 ≠ f.1

/-- The entry has the first and the last time of its segment. -/
structure Timed (tinfo : List (VectorClock × ThdClkInfo)) (accs : List (VectorClock × ℕ)) : Prop where
  start : ∀ e ∈ tinfo, (e.1, e.2.start) ∈ accs
  stop : ∀ e ∈ tinfo, (e.1, e.2.stop) ∈ accs
  covers : ∀ acc ∈ accs, ∃ e ∈ tinfo, e.1 = acc.1 ∧ e.2.start ≤ acc.2 ∧ acc.2 ≤ e.2.stop

/-- The two ways in which an access is pushed. -/
theorem pushClock_cases (tinfo : List (VectorClock × ThdClkInfo)) (acc : VectorClock × ℕ) :
    (∃ before info, tinfo = before ++ [(acc.1, info)] ∧ pushClock tinfo acc = before ++ [(acc.1, addThdClk info acc.2)]) ∨
      (∀ e ∈ tinfo.getLast?, e.1 ≠ acc.1) ∧ pushClock tinfo acc = tinfo ++ [(acc.1, ⟨acc.2, acc.2⟩)] := by
  unfold pushClock
  cases last : tinfo.getLast? with
  | none =>
    rw [List.getLast?_eq_none_iff.mp last]
    exact Or.inr ⟨nofun, rfl⟩
  | some e =>
    dsimp only
    split
    · next same =>
      obtain ⟨before, rfl⟩ := List.getLast?_eq_some_iff.mp last
      rw [(VectorClock.equal_iff _ _).mp same]
      exact Or.inl ⟨before, e.2, rfl, by simp⟩
    · next other =>
      refine Or.inr ⟨?_, rfl⟩
      rintro f ⟨⟩ same
      exact other ((VectorClock.equal_iff _ _).mpr same.symm)

namespace Compressed

theorem push (ok : Compressed tinfo accs) (later : ∀ old ∈ accs, NotAfter old acc) :
    Compressed (pushClock tinfo acc) (accs ++ [acc]) := by
  have below : ∀ e ∈ tinfo, e.1.happensBefore acc.1 = true := by
    intro e member
    obtain ⟨old, stored, same⟩ := List.mem_map.mp ((ok.values e.1).mp (List.mem_map_of_mem member))
    exact same ▸ later old stored
  rcases pushClock_cases tinfo acc with ⟨before, info, rfl, pushed⟩ | ⟨differs, pushed⟩
  · rw [pushed]
    constructor
    case values =>
      intro v
      have values := ok.values v
      simp only [List.map_append, List.map_cons, List.map_nil, List.mem_append, List.mem_singleton] at values ⊢
      rw [← values]
      exact (or_iff_left_of_imp Or.inr).symm
    case increasing =>
      obtain ⟨sorted, -, apart⟩ := List.pairwise_append.mp ok.increasing
      refine List.pairwise_append.mpr ⟨sorted, List.pairwise_singleton _ _, fun e member f single => ?_⟩
      rw [List.mem_singleton.mp single]
      exact apart e member (acc.1, info) (List.mem_singleton_self _)
  · rw [pushed]
    constructor
    case values =>
      intro v
      simp only [List.map_append, List.map_cons, List.map_nil, List.mem_append, List.mem_singleton]
      exact or_congr_left (ok.values v)
    case increasing =>
      refine List.pairwise_append.mpr ⟨ok.increasing, List.pairwise_singleton _ _, fun e member f single => ?_⟩
      rw [List.mem_singleton.mp single]
      refine ⟨below e member, fun same => ?_⟩
      -- then the newest entry has this clock, too
      obtain ⟨last, newest⟩ := Option.isSome_iff_exists.mp (List.getLast?_isSome.mpr (List.ne_nil_of_mem member))
      have above := differs last newest
      obtain ⟨before, rfl⟩ := List.getLast?_eq_some_iff.mp newest
      rcases List.mem_append.mp member with older | newest_one
      · have under := ((List.pairwise_append.mp ok.increasing).2.2 e older last (List.mem_singleton_self _)).1
        rw [same] at under
        exact above (VectorClock.happensBefore_antisymm (below last (by simp)) under)
      · rw [List.mem_singleton.mp newest_one] at same
        exact above same

theorem fold (sorted : accs.Pairwise NotAfter) : Compressed (accs.foldl pushClock []) accs := by
  induction accs using List.reverseRecOn with
  | nil => exact ⟨fun v => Iff.rfl, List.Pairwise.nil⟩
  | append_singleton accs acc ih =>
    obtain ⟨sorted, -, later⟩ := List.pairwise_append.mp sorted
    rw [List.foldl_append]
    exact (ih sorted).push fun old member => later old member acc (List.mem_singleton_self _)

end Compressed

theorem Timed.push (ok : Timed tinfo accs) (later : ∀ old ∈ accs, old.2 ≤ acc.2) (valid : acc.2 ≤ invalidTimestamp) :
    Timed (pushClock tinfo acc) (accs ++ [acc]) := by
  have kept : ∀ x ∈ accs, x ∈ accs ++ [acc] := fun x member => List.mem_append_left _ member
  have newest : acc ∈ accs ++ [acc] := List.mem_append_right _ (List.mem_singleton_self _)
  rcases pushClock_cases tinfo acc with ⟨before, info, rfl, pushed⟩ | ⟨-, pushed⟩
  · have here : (acc.1, info) ∈ before ++ [(acc.1, info)] := by simp
    have unchanged : (addThdClk info acc.2).start = info.start := by
      rw [addThdClk]
      split
      · next unset =>
        -- a start at the last time there is stays the first one
        have upper : acc.2 ≤ info.start := unset ▸ valid
        exact Nat.le_antisymm upper (later _ (ok.start _ here))
      · rfl
    rw [pushed]
    constructor
    case start =>
      intro e member
      rcases List.mem_append.mp member with old | new
      · exact kept _ (ok.start e (List.mem_append_left _ old))
      · rw [List.mem_singleton.mp new, unchanged]
        exact kept _ (ok.start _ here)
    case stop =>
      intro e member
      rcases List.mem_append.mp member with old | new
      · exact kept _ (ok.stop e (List.mem_append_left _ old))
      · rw [List.mem_singleton.mp new]
        exact newest
    case covers =>
      intro x member
      rcases List.mem_append.mp member with old | new
      · obtain ⟨e, member, same, above, below⟩ := ok.covers x old
        rcases List.mem_append.mp member with inside | last
        · exact ⟨e, List.mem_append_left _ inside, same, above, below⟩
        · cases List.mem_singleton.mp last
          refine ⟨_, List.mem_append_right _ (List.mem_singleton_self _), same, ?_, later x old⟩
          rw [unchanged]
          exact above
      · cases List.mem_singleton.mp new
        refine ⟨_, List.mem_append_right _ (List.mem_singleton_self _), rfl, ?_, le_rfl⟩
        rw [unchanged]
        exact later _ (ok.start _ here)
  · rw [pushed]
    constructor
    case start =>
      intro e member
      rcases List.mem_append.mp member with old | new
      · exact kept _ (ok.start e old)
      · rw [List.mem_singleton.mp new]
        exact newest
    case stop =>
      intro e member
      rcases List.mem_append.mp member with old | new
      · exact kept _ (ok.stop e old)
      · rw [List.mem_singleton.mp new]
        exact newest
    case covers =>
      intro x member
      rcases List.mem_append.mp member with old | new
      · obtain ⟨e, member, rest⟩ := ok.covers x old
        exact ⟨e, List.mem_append_left _ member, rest⟩
      · cases List.mem_singleton.mp new
        exact ⟨_, List.mem_append_right _ (List.mem_singleton_self _), rfl, le_rfl, le_rfl⟩

theorem Timed.fold (sorted : accs.Pairwise fun acc later => acc.2 ≤ later.2) (valid : ∀ acc ∈ accs, acc.2 ≤ invalidTimestamp) :
    Timed (accs.foldl pushClock []) accs := by
  induction accs using List.reverseRecOn with
  | nil => exact ⟨nofun, nofun, nofun⟩
  | append_singleton accs acc ih =>
    obtain ⟨sorted, -, later⟩ := List.pairwise_append.mp sorted
    rw [List.foldl_append]
    refine (ih sorted fun x member => valid x (List.mem_append_left _ member)).push
      (fun old member => later old member acc (List.mem_singleton_self _)) (valid acc (by simp))

namespace PredictorNew
variable {better : ℕ → ℕ → Bool} {group : List (ℕ × ThdClkInfo)}

/-- A summary of the segment whose time is best, and of the preferred kind if one of these is. -/
def Best (time : ThdClkInfo → ℕ) (better : ℕ → ℕ → Bool) (preferred : IRootEventType) (p : PredictorNew)
    (group : List (ℕ × ThdClkInfo)) (s bestTime : ℕ) : Prop :=
  (∃ info, (s, info) ∈ group ∧ time info = bestTime) ∧
    ∀ entry ∈ group, better (time entry.2) bestTime = false ∧ (time entry.2 = bestTime →
      p.accSums[entry.1]?.any (·.type = preferred) = true → p.accSums[s]?.any (·.type = preferred) = true)

theorem best_updateBest (time : ThdClkInfo → ℕ) (preferred : IRootEventType) (p : PredictorNew)
    (irrefl : ∀ x, better x x = false) (trans : ∀ x y z, better x y = true → better y z = true → better x z = true)
    (occupied : group ≠ []) :
    ∃ s bestTime, group.foldl (updateBest time better preferred p) none = some (s, bestTime) ∧
      Best time better preferred p group s bestTime := by
  induction group using List.reverseRecOn with
  | nil => exact absurd rfl occupied
  | append_singleton group entry ih =>
    rw [List.foldl_append, List.foldl_cons, List.foldl_nil]
    by_cases first : group = []
    · subst first
      refine ⟨entry.1, time entry.2, rfl, ⟨entry.2, by simp, rfl⟩, fun other member => ?_⟩
      rw [List.nil_append] at member
      rw [List.mem_singleton.mp member]
      exact ⟨irrefl _, fun _ => id⟩
    · obtain ⟨s, bestTime, folded, ⟨info, listed, same⟩, best⟩ := ih first
      rw [folded, updateBest]
      split
      · next wins =>
        refine ⟨_, _, rfl, ⟨entry.2, by simp, rfl⟩, fun other member => ?_⟩
        rcases List.mem_append.mp member with old | new
        · obtain ⟨notBetter, -⟩ := best other old
          refine ⟨?_, fun equal => ?_⟩
          · apply Bool.eq_false_iff.mpr
            intro beats
            exact nomatch notBetter.symm.trans (trans _ _ _ beats wins)
          · rw [equal] at notBetter
            exact nomatch notBetter.symm.trans wins
        · rw [List.mem_singleton.mp new]
          exact ⟨irrefl _, fun _ => id⟩
      · next loses =>
        split
        · next takes =>
          refine ⟨_, _, rfl, ⟨entry.2, by simp, takes.1⟩, fun other member => ?_⟩
          rcases List.mem_append.mp member with old | new
          · exact ⟨(best other old).1, fun _ _ => takes.2⟩
          · rw [List.mem_singleton.mp new]
            exact ⟨Bool.eq_false_iff.mpr loses, fun _ => id⟩
        · next leaves =>
          refine ⟨_, _, rfl, ⟨info, by simp [listed], same⟩, fun other member => ?_⟩
          rcases List.mem_append.mp member with old | new
          · exact best other old
          · rw [List.mem_singleton.mp new]
            exact ⟨Bool.eq_false_iff.mpr loses, fun equal passed => absurd ⟨equal, passed⟩ leaves⟩

/-- The first summary of a segment. -/
abbrev IsFirst (p : PredictorNew) (group : List (ℕ × ThdClkInfo)) (s : ℕ) : Prop :=
  ∃ bestTime, Best (·.start) (fun time best => time < best) .memRead p group s bestTime

abbrev IsLast (p : PredictorNew) (group : List (ℕ × ThdClkInfo)) (s : ℕ) : Prop :=
  ∃ bestTime, Best (·.stop) (fun time best => best < time) .memWrite p group s bestTime

theorem timedEntry_spec (p : PredictorNew) (segment : VectorClock × List (ℕ × ThdClkInfo)) (occupied : segment.2 ≠ []) :
    ∃ entry, p.timedEntry segment = some entry ∧ entry.vc = segment.1 ∧ p.IsFirst segment.2 entry.first ∧
      p.IsLast segment.2 entry.last := by
  have earlier : ∀ x y z : ℕ, decide (x < y) = true → decide (y < z) = true → decide (x < z) = true := by
    intro x y z less less'
    exact decide_eq_true ((of_decide_eq_true less).trans (of_decide_eq_true less'))
  obtain ⟨first, start, began, isFirst⟩ := best_updateBest (·.start) .memRead p (fun x => decide_eq_false (lt_irrefl x))
    earlier occupied
  obtain ⟨last, stop, ended, isLast⟩ := best_updateBest (·.stop) .memWrite p (fun x => decide_eq_false (lt_irrefl x))
    (fun x y z more more' => earlier z y x more' more) occupied
  refine ⟨⟨segment.1, first, last⟩, ?_, rfl, ⟨start, isFirst⟩, ⟨stop, isLast⟩⟩
  simp only [timedEntry, updateStart, updateEnd, began, ended, Option.bind_eq_bind, Option.bind_some]
  rfl

end PredictorNew
end Maple.Idiom
