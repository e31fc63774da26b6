import Maple.Idiom.TraceExact

/-! The ordered dependencies of a run are the immediate ones of its accesses. -/
namespace Maple.Idiom.Predictor
variable {h : List Happening} {calls : List Call} {m : MetaId} {t : ThreadId} {n : ℕ} {x : ThreadId × VectorClock}

/-- The clock of a thread never runs backwards. -/
structure TimeOk (h : List Happening) : Prop where
  ordered : OrderedBy (fun a b => a.thdClk ≤ b.thdClk) h
  valid : ∀ a, .access a ∈ h → a.thdClk ≤ invalidTimestamp

def Happening.UpTo (t : ThreadId) (clk : ℕ) : Happening → Prop
  | .access a => a.thdId = t → a.thdClk ≤ clk
  | _ => True

instance (t : ThreadId) (clk : ℕ) (x : Happening) : Decidable (x.UpTo t clk) := by
  unfold Happening.UpTo
  split <;> infer_instance

/-- The event comes with the present clock of its thread. -/
def Timely (s : State) (e : Event) : Prop :=
  s.Allows e ∧ ∀ time ∈ e.time?, time.2 ≤ invalidTimestamp ∧ ∀ x ∈ s.history, x.UpTo time.1 time.2

instance (s : State) (e : Event) : Decidable (Timely s e) := by
  unfold Timely
  infer_instance

theorem TimeOk.silent (ok : TimeOk h) {added : List Happening} (silent : ∀ a, .access a ∉ added) :
    TimeOk (h ++ added) where
  ordered := by
    refine List.pairwise_append.mpr ⟨ok.ordered, ?_, ?_⟩
    · refine List.Pairwise.imp_of_mem (R := fun _ _ => True) ?_ (List.pairwise_of_forall fun _ _ => trivial)
      rintro _ _ member _ - a b rfl
      exact absurd member (silent a)
    · rintro _ _ _ member a b - rfl
      exact absurd member (silent b)
  valid := by
    intro a member
    rcases List.mem_append.mp member with old | new
    · exact ok.valid a old
    · exact absurd new (silent a)

theorem TimeOk.access (ok : TimeOk h) {a : Access} (valid : a.thdClk ≤ invalidTimestamp)
    (later : ∀ x ∈ h, x.UpTo a.thdId a.thdClk) : TimeOk (h ++ [.access a]) where
  ordered := by
    refine List.pairwise_append.mpr ⟨ok.ordered, List.pairwise_singleton _ _, ?_⟩
    rintro _ member _ single b c rfl rfl same
    cases List.mem_singleton.mp single
    exact later _ member same
  valid := by
    intro b member
    rcases List.mem_append.mp member with old | new
    · exact ok.valid b old
    · cases List.mem_singleton.mp new
      exact valid

theorem TimeOk.grown {time : Option (ThreadId × ℕ)} {h' : List Happening} (ok : TimeOk h) (grown : Grown time h h')
    (timely : ∀ here ∈ time, here.2 ≤ invalidTimestamp ∧ ∀ x ∈ h, x.UpTo here.1 here.2) : TimeOk h' := by
  cases grown with
  | quiet added silent => exact ok.silent silent
  | access before after a own silent =>
    obtain ⟨valid, later⟩ := timely _ own
    have first : TimeOk (h ++ before) := ok.silent fun b member => silent b (List.mem_append_left _ member)
    have second : TimeOk (h ++ before ++ [.access a]) := by
      apply first.access valid
      intro x member
      rcases List.mem_append.mp member with old | new
      · exact later x old
      · cases x with
        | access b => exact absurd (List.mem_append_left _ new) (silent b)
        | lock => trivial
        | unlock => trivial
    have third := second.silent fun b member => silent b (List.mem_append_right _ member)
    simpa only [List.append_assoc, List.singleton_append] using third

theorem timeOk_of_reach {c : Config} {s : State} (reached : Runs.Reach (· = {}) Timely (State.step c) s) :
    s.Inv c ∧ TimeOk s.history := by
  apply reached.invariant fun s => s.Inv c ∧ TimeOk s.history
  · rintro _ rfl
    exact ⟨State.inv_initial c, List.Pairwise.nil, nofun⟩
  · rintro s e next ⟨inv, ok⟩ ⟨allowed, timely⟩ stepped
    obtain ⟨inv', grown⟩ := inv.step allowed stepped
    exact ⟨inv', ok.grown grown timely⟩

/-- The accesses of a segment. -/
structure InSegment (h : List Happening) (m : MetaId) (x : ThreadId × VectorClock) (a : Access) : Prop where
  happened : .access a ∈ h
  metaId : a.metaId = m
  thdId : a.thdId = x.1
  vc : a.vc = x.2

def Segment (h : List Happening) (m : MetaId) (x : ThreadId × VectorClock) : Prop := ∃ a, InSegment h m x a

/-- A first access of a segment by its thread clock, a read if there is one at this clock. -/
structure FirstOf (h : List Happening) (m : MetaId) (x : ThreadId × VectorClock) (a : Access) : Prop
    extends InSegment h m x a where
  earliest : ∀ b, InSegment h m x b → a.thdClk ≤ b.thdClk ∧
    (b.thdClk = a.thdClk → b.type = .memRead → a.type = .memRead)

/-- A last one, a write if there is one. -/
structure LastOf (h : List Happening) (m : MetaId) (x : ThreadId × VectorClock) (a : Access) : Prop
    extends InSegment h m x a where
  latest : ∀ b, InSegment h m x b → b.thdClk ≤ a.thdClk ∧
    (b.thdClk = a.thdClk → b.type = .memWrite → a.type = .memWrite)

/-- The access has been given to the summary. -/
def SummarisedBy (calls : List Call) (a : Access) (n : ℕ) : Prop :=
  ∃ call ∈ calls, call.dynAcc.access = a ∧ call.accSum = n

namespace State
variable {c : Config} {s : State} {live : MetaId → Prop}

theorem Core.timed (core : Core c live s) (times : TimeOk s.history) {a : AccSum} (found : s.accSums[n]? = some a) :
    Timed a.tinfo (clocksOf s.calls n) := by
  rw [core.sums.tinfo n a found]
  apply Timed.fold
  · have related := core.calls.related (R := fun a b => a.thdClk ≤ b.thdClk) times.ordered
    exact core.sums.clocks_related (R := fun a b => a.thdClk ≤ b.thdClk) related fun _ _ => id
  · intro acc member
    obtain ⟨call, made, -, rfl⟩ := mem_clocksOf.mp member
    obtain ⟨i, -, happened, -⟩ := core.calls.placed call made
    exact times.valid _ (List.mem_of_getElem? happened)

/-- All accesses of the meta have been passed. -/
structure Flushed (s : State) (m : MetaId) : Prop where
  alive : m ∈ s.accHistos
  passed : ∀ i t, AccessAt s.history m t i → Passed s.calls i

theorem Core.call_of_access (core : Core c live s) (flushed : Flushed s m) {a : Access} (inside : InSegment s.history m x a) :
    ∃ call ∈ s.calls, call.dynAcc.access = a := by
  obtain ⟨i, found⟩ := List.getElem?_of_mem inside.happened
  obtain ⟨call, made, place⟩ := flushed.passed i a.thdId ⟨a, found, inside.metaId, rfl⟩
  obtain ⟨j, same, found', -⟩ := core.calls.placed call made
  cases place.symm.trans same
  exact ⟨call, made, (Happening.access.inj (Option.some.inj (found.symm.trans found'))).symm⟩

theorem Core.inSegment_of_call (core : Core c live s) {call : Call} (made : call ∈ s.calls)
    (same_meta : call.dynAcc.metaId = m) (same_thread : call.dynAcc.thdId = x.1) (same_vc : call.dynAcc.vc = x.2) :
    InSegment s.history m x call.dynAcc.access := by
  obtain ⟨i, -, found, -⟩ := core.calls.placed call made
  exact ⟨List.mem_of_getElem? found, same_meta, same_thread, same_vc⟩

theorem Core.segment_iff (core : Core c live s) (flushed : Flushed s m) :
    s.toPredictorNew.Segment m x ↔ Segment s.history m x := by
  have sorted : ∀ n, (clocksOf s.calls n).Pairwise NotAfter := fun n =>
    core.sums.clocks_related (R := fun a b => a.vc.happensBefore b.vc = true) core.vc_related fun _ _ => id
  obtain ⟨t, v⟩ := x
  rw [core.sums.segment_iff sorted flushed.alive]
  constructor
  · rintro ⟨call, made, same_meta, same_thread, same_vc⟩
    exact ⟨_, core.inSegment_of_call made same_meta same_thread same_vc⟩
  · rintro ⟨a, inside⟩
    obtain ⟨call, made, rfl⟩ := core.call_of_access flushed inside
    exact ⟨call, made, inside.metaId, inside.thdId, inside.vc⟩

/-- The entry of a group covers an access of the segment. -/
theorem Core.covered (core : Core c live s) (times : TimeOk s.history) (flushed : Flushed s m)
    {group : List (ℕ × ThdClkInfo)} (members : ∀ entry, entry ∈ group ↔ s.toPredictorNew.InSegment m x.1 x.2 entry)
    {b : Access} (inside : InSegment s.history m x b) : ∃ entry ∈ group, ∃ sum, s.accSums[entry.1]? = some sum ∧
      sum.type = b.type ∧ entry.2.start ≤ b.thdClk ∧ b.thdClk ≤ entry.2.stop := by
  obtain ⟨call, made, rfl⟩ := core.call_of_access flushed inside
  obtain ⟨sum, found, about⟩ := core.sums.about call made
  obtain ⟨e, listed, same, above, below⟩ :=
    (core.timed times found).covers _ (mem_clocksOf.mpr ⟨call, made, rfl, rfl⟩)
  refine ⟨(call.accSum, e.2), (members _).mpr ⟨?_, sum, found, ?_⟩, sum, found, about.type, above, below⟩
  · refine (core.sums.listed m flushed.alive x.1 _).mpr ⟨sum, found, ?_, ?_⟩
    · exact about.metaId.trans inside.metaId
    · exact about.thdId.trans inside.thdId
  · rw [show x.2 = e.1 from inside.vc.symm.trans same.symm]
    exact listed

/-- The access at one end of an entry. -/
theorem Core.at_end (core : Core c live s) (flushed : Flushed s m)
    {entry : ℕ × ThdClkInfo} (inside : s.toPredictorNew.InSegment m x.1 x.2 entry) {clk : ℕ}
    (ends : ∀ sum : AccSum, s.accSums[entry.1]? = some sum → (x.2, entry.2) ∈ sum.tinfo →
      (x.2, clk) ∈ clocksOf s.calls entry.1) :
    ∃ a sum, InSegment s.history m x a ∧ SummarisedBy s.calls a entry.1 ∧ a.thdClk = clk ∧
      s.accSums[entry.1]? = some sum ∧ sum.type = a.type := by
  obtain ⟨listed, sum, found, here⟩ := inside
  obtain ⟨call, made, same, clocks⟩ := mem_clocksOf.mp (ends sum found here)
  obtain ⟨same_vc, rfl⟩ := Prod.mk.inj clocks
  obtain ⟨sum', found', about⟩ := core.sums.about call made
  rw [same] at found'
  cases found.symm.trans found'
  obtain ⟨sum', found', own_meta, own_thread⟩ := (core.sums.listed m flushed.alive x.1 _).mp listed
  cases found.symm.trans found'
  refine ⟨call.dynAcc.access, sum, core.inSegment_of_call made ?_ ?_ same_vc, ⟨call, made, rfl, same⟩, rfl, found, about.type⟩
  · exact about.metaId.symm.trans own_meta
  · exact about.thdId.symm.trans own_thread

theorem Core.firstOf (core : Core c live s) (times : TimeOk s.history) (flushed : Flushed s m) {first last : ℕ}
    (bounds : s.toPredictorNew.Bounds m x first last) : ∃ a, FirstOf s.history m x a ∧ SummarisedBy s.calls a first := by
  obtain ⟨group, members, ⟨best, ⟨info, here, rfl⟩, wins⟩, -⟩ := bounds.group
  obtain ⟨a, sum, inside, summarised, clk, found, type⟩ := core.at_end flushed ((members _).mp here)
    fun sum found listed => (core.timed times found).start _ listed
  refine ⟨a, ⟨inside, fun b other => ?_⟩, summarised⟩
  obtain ⟨entry, listed, sum', found', type', above, -⟩ := core.covered times flushed members other
  obtain ⟨not_better, preferred⟩ := wins entry listed
  have upper : info.start ≤ entry.2.start := Nat.not_lt.mp (of_decide_eq_false not_better)
  rw [clk]
  refine ⟨upper.trans above, fun same read => ?_⟩
  have equal : entry.2.start = info.start := Nat.le_antisymm (above.trans same.le) upper
  have wanted := preferred equal (by rw [found']; simp [type', read])
  rw [found] at wanted
  exact type.symm.trans (of_decide_eq_true wanted)

theorem Core.lastOf_segment (core : Core c live s) (times : TimeOk s.history) (flushed : Flushed s m) {first last : ℕ}
    (bounds : s.toPredictorNew.Bounds m x first last) : ∃ a, LastOf s.history m x a ∧ SummarisedBy s.calls a last := by
  obtain ⟨group, members, -, ⟨best, ⟨info, here, rfl⟩, wins⟩⟩ := bounds.group
  obtain ⟨a, sum, inside, summarised, clk, found, type⟩ := core.at_end flushed ((members _).mp here)
    fun sum found listed => (core.timed times found).stop _ listed
  refine ⟨a, ⟨inside, fun b other => ?_⟩, summarised⟩
  obtain ⟨entry, listed, sum', found', type', -, below⟩ := core.covered times flushed members other
  obtain ⟨not_better, preferred⟩ := wins entry listed
  have upper : entry.2.stop ≤ info.stop := Nat.not_lt.mp (of_decide_eq_false not_better)
  rw [clk]
  refine ⟨below.trans upper, fun same write => ?_⟩
  have equal : entry.2.stop = info.stop := Nat.le_antisymm upper (same.ge.trans below)
  have wanted := preferred equal (by rw [found']; simp [type', write])
  rw [found] at wanted
  exact type.symm.trans (of_decide_eq_true wanted)

/-- What `ProcessFree` of a meta considers and records. -/
structure Ordered (c : Config) (s flushed : State) (m : MetaId) (considered : List (ℕ × ℕ))
    (first last : ThreadId × VectorClock → ℕ) (pairs : PairIndex) : Prop where
  flush : s.flush c m = some flushed
  considers : flushed.toPredictorNew.consideredPairs m = some considered
  updates : flushed.toPredictorNew.processAccSumPairUpdate m = some { flushed.toPredictorNew with pairs := pairs }
  firsts : ∀ x, Segment s.history m x → ∃ a, FirstOf s.history m x a ∧ SummarisedBy flushed.calls a (first x)
  lasts : ∀ x, Segment s.history m x → ∃ a, LastOf s.history m x a ∧ SummarisedBy flushed.calls a (last x)
  immediate : ∀ src dst, (src, dst) ∈ considered ↔
    ∃ x y, PredictorNew.Immediate (Segment s.history m) x y ∧ src = last x ∧ dst = first y
  recorded : ∀ src dst, dst ∈ pairs.succOf src ↔
    dst ∈ flushed.pairs.succOf src ∨ (src, dst) ∈ considered ∧ flushed.toPredictorNew.AllowsOrdered src dst

/-- When a meta is freed, in the run or by the loop of `ProgramExit`, the ordered dependencies are the
immediate ones of its accesses. -/
theorem ordered_pairs_immediate {start : State} (reached : Runs.Reach (· = {}) Timely (State.step c) start)
    (done : List (Address × Meta)) (exiting : done.foldlM (fun s entry => s.processFree c entry.2.id) start = some s)
    (alive : m ∈ s.accHistos) : ∃ flushed considered first last pairs, Ordered c s flushed m considered first last pairs := by
  obtain ⟨inv, times⟩ := timeOk_of_reach reached
  obtain ⟨s', looped, core, history, -⟩ := inv.core.exitLoop done
  cases exiting.symm.trans looped
  rw [← history] at times
  obtain ⟨flushed, ran, kept, core', passed⟩ := core.flush m
  rw [← kept.history] at times passed
  have complete : Flushed flushed m := ⟨(kept.live m).mpr alive, passed⟩
  have segmented := core'.sums.segmented complete.alive core'.vc_related
  obtain ⟨considered, first, last, pairs, made, updated, spec⟩ := segmented.processAccSumPairUpdate core'.sums.wf
  have segments : flushed.toPredictorNew.Segment m = Segment flushed.history m :=
    funext fun x => propext (core'.segment_iff complete)
  refine ⟨flushed, considered, first, last, pairs, ran, made, updated, ?_, ?_, ?_, spec.recorded⟩
  · rw [← kept.history]
    intro x inside
    exact core'.firstOf times complete (spec.bounds x (segments ▸ inside))
  · rw [← kept.history]
    intro x inside
    exact core'.lastOf_segment times complete (spec.bounds x (segments ▸ inside))
  · rw [← kept.history, ← segments]
    exact spec.immediate

/-- A write before the start of a thread that reads. -/
theorem ordered_pairs_immediate_fork : ∃ s : State, s.history.length = 2 ∧ ∃ m ∈ s.accHistos,
    ∃ flushed considered first last pairs, Ordered plain s flushed m considered first last pairs := by
  have t : (Runs.follow Timely (State.step plain) {} [.sync (.threadStart 0 invalidThdId), .memWrite 0 1 4 8,
      .sync (.threadStart 1 0), .memRead 1 1 5 8]).any
        (fun s => s.history.length = 2 ∧ 0 ∈ s.accHistos) = true := by
    decide +kernel
  obtain ⟨s, reached, passed⟩ : ∃ s, Runs.Reach (· = ({} : State)) Timely (State.step plain) s ∧ _ :=
    Runs.Reach.of_follow (by rfl) _ t
  obtain ⟨length, alive⟩ := of_decide_eq_true passed
  exact ⟨s, length, 0, alive, ordered_pairs_immediate reached [] rfl alive⟩

end State
end Maple.Idiom.Predictor
