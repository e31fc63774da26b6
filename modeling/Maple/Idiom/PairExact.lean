import Maple.Idiom.Segments
import Maple.Lib.Runs

/-! `ProcessAccSumPairUpdate` considers the immediate pairs of segments. -/
namespace Maple.Idiom

namespace PredictorNew
variable {p : PredictorNew} {m : MetaId} {t : ThreadId} {v : VectorClock}

/-- The summaries of a thread with their clocks in the segment. -/
def InSegment (p : PredictorNew) (m : MetaId) (t : ThreadId) (v : VectorClock) (entry : ℕ × ThdClkInfo) : Prop :=
  entry.1 ∈ p.sumsOf m t ∧ ∃ a, p.accSums[entry.1]? = some a ∧ (v, entry.2) ∈ a.tinfo

def Segment (p : PredictorNew) (m : MetaId) (x : ThreadId × VectorClock) : Prop := ∃ entry, p.InSegment m x.1 x.2 entry

/-- No segment lies between the two. -/
structure Immediate (segment : ThreadId × VectorClock → Prop) (x y : ThreadId × VectorClock) : Prop where
  source : segment x
  target : segment y
  apart : x.1 ≠ y.1
  earlier : x.2.happensBefore y.2 = true
  none_between : ∀ z, segment z → z ≠ x → z ≠ y → ¬(x.2.happensBefore z.2 = true ∧ z.2.happensBefore y.2 = true)

/-- The clocks of a thread are in one order. -/
structure Segmented (p : PredictorNew) (m : MetaId) : Prop where
  stored : ∀ t, ∀ s ∈ p.sumsOf m t, ∃ a, p.accSums[s]? = some a ∧ a.tinfo ≠ [] ∧
    a.tinfo.Pairwise fun e f => e.1.happensBefore f.1 = true ∧ e.1 ≠ f.1
  comparable : ∀ t v w, p.Segment m (t, v) → p.Segment m (t, w) → v.happensBefore w = true ∨ w.happensBefore v = true

/-- The entries of a thread: its segments in order, with their first and last summaries. -/
structure EntriesOf (p : PredictorNew) (m : MetaId) (t : ThreadId) (entries : List TimedEntry) : Prop where
  increasing : entries.Pairwise fun e f => e.vc.happensBefore f.vc = true ∧ f.vc.happensBefore e.vc = false
  segments : ∀ v, (∃ e ∈ entries, e.vc = v) ↔ p.Segment m (t, v)
  groups : ∀ e ∈ entries, ∃ group, (∀ entry, entry ∈ group ↔ p.InSegment m t e.vc entry) ∧ p.IsFirst group e.first ∧
    p.IsLast group e.last

/-- The cursors on the clocks of a thread's summaries. -/
theorem Segmented.cursors (segmented : p.Segmented m) (t : ThreadId) :
    ∃ cursors, ((p.sumsOf m t).mapM fun s => p.accSums[s]?.map fun accSum => (s, accSum.tinfo)) = some cursors ∧
      (∀ cursor ∈ cursors, cursor.2 ≠ []) ∧
      (∀ v (entry : ℕ × ThdClkInfo), (∃ cursor ∈ cursors, cursor.1 = entry.1 ∧ (v, entry.2) ∈ cursor.2) ↔
        p.InSegment m t v entry) ∧
      Merge.Mergeable VectorClock.happensBefore VectorClock.equal cursors := by
  obtain ⟨cursors, collected, members, -⟩ := Runs.mapM_some (l := p.sumsOf m t)
    (f := fun s => p.accSums[s]?.map fun accSum => (s, accSum.tinfo)) (by
      intro s listed
      obtain ⟨a, found, -⟩ := segmented.stored t s listed
      exact ⟨_, congrArg _ found⟩)
  have origin : ∀ cursor ∈ cursors, cursor.1 ∈ p.sumsOf m t ∧ ∃ a, p.accSums[cursor.1]? = some a ∧ cursor.2 = a.tinfo := by
    intro cursor here
    obtain ⟨s, listed, made⟩ := (members cursor).mp here
    obtain ⟨a, found, rfl⟩ := Option.map_eq_some_iff.mp made
    exact ⟨listed, a, found, rfl⟩
  have in_segment : ∀ v (entry : ℕ × ThdClkInfo), (∃ cursor ∈ cursors, cursor.1 = entry.1 ∧ (v, entry.2) ∈ cursor.2) ↔
      p.InSegment m t v entry := by
    intro v entry
    constructor
    · rintro ⟨cursor, here, same, inside⟩
      obtain ⟨listed, a, found, same'⟩ := origin cursor here
      rw [same] at listed found
      exact ⟨listed, a, found, same' ▸ inside⟩
    · rintro ⟨listed, a, found, inside⟩
      exact ⟨(entry.1, a.tinfo), (members _).mpr ⟨entry.1, listed, congrArg _ found⟩, rfl, inside⟩
  have segment : ∀ v, Merge.Value cursors v → p.Segment m (t, v) := by
    rintro v ⟨cursor, listed, info, here⟩
    exact ⟨(cursor.1, info), (in_segment v _).mp ⟨cursor, listed, rfl, here⟩⟩
  refine ⟨cursors, collected, fun cursor here => ?_, in_segment, ?_⟩
  · obtain ⟨listed, a, found, same⟩ := origin cursor here
    obtain ⟨a', found', occupied, -⟩ := segmented.stored t cursor.1 listed
    cases found.symm.trans found'
    rw [same]
    exact occupied
  · constructor
    case same_iff => exact VectorClock.equal_iff
    case trans => exact fun _ _ _ => VectorClock.happensBefore_trans
    case total => exact fun v w here here' => segmented.comparable t v w (segment v here) (segment w here')
    case antisymm => exact fun _ _ => VectorClock.happensBefore_antisymm
    case increasing =>
      intro cursor here
      obtain ⟨listed, a, found, same⟩ := origin cursor here
      obtain ⟨a', found', -, increasing⟩ := segmented.stored t cursor.1 listed
      cases found.symm.trans found'
      rw [same]
      exact increasing

theorem Segmented.timedEntryVec (segmented : p.Segmented m) (t : ThreadId) :
    ∃ entries, p.timedEntryVec (p.sumsOf m t) = some entries ∧ p.EntriesOf m t entries := by
  obtain ⟨cursors, collected, nonempty, in_segment, mergeable⟩ := segmented.cursors t
  obtain ⟨out, merged, spec⟩ := Merge.merge_spec mergeable (Nat.le_refl _)
  have group_iff : ∀ v group, (v, group) ∈ out → ∀ entry, entry ∈ group ↔ p.InSegment m t v entry := by
    intro v group listed entry
    rw [← in_segment v entry]
    exact spec.groups v group listed entry.1 entry.2
  have listed_iff : ∀ v, (∃ group, (v, group) ∈ out) ↔ p.Segment m (t, v) := by
    intro v
    rw [spec.values]
    constructor
    · rintro ⟨cursor, listed, info, here⟩
      exact ⟨(cursor.1, info), (in_segment v _).mp ⟨cursor, listed, rfl, here⟩⟩
    · rintro ⟨entry, inside⟩
      obtain ⟨cursor, listed, -, here⟩ := (in_segment v entry).mpr inside
      exact ⟨cursor, listed, entry.2, here⟩
  have entry_spec : ∀ segment ∈ out, ∃ e, p.timedEntry segment = some e ∧ e.vc = segment.1 ∧
      p.IsFirst segment.2 e.first ∧ p.IsLast segment.2 e.last := by
    rintro ⟨v, group⟩ listed
    apply timedEntry_spec
    obtain ⟨entry, inside⟩ := (listed_iff v).mp ⟨group, listed⟩
    exact List.ne_nil_of_mem ((group_iff v group listed entry).mpr inside)
  have entry_of : ∀ segment ∈ out, ∀ e, p.timedEntry segment = some e →
      e.vc = segment.1 ∧ p.IsFirst segment.2 e.first ∧ p.IsLast segment.2 e.last := by
    intro segment listed e made
    obtain ⟨e', made', bounds⟩ := entry_spec segment listed
    cases made.symm.trans made'
    exact bounds
  obtain ⟨entries, ended, members, pairwise⟩ := Runs.mapM_some (l := out) (f := p.timedEntry) (by
    intro segment listed
    obtain ⟨e, made, -⟩ := entry_spec segment listed
    exact ⟨e, made⟩)
  refine ⟨entries, ?_, ?_, fun v => ?_, fun e member => ?_⟩
  · simp only [PredictorNew.timedEntryVec, collected, debugAssert_pos nonempty, merged, Option.bind_eq_bind, Option.bind_some]
    exact ended
  · apply pairwise
    refine List.Pairwise.imp_of_mem ?_ spec.increasing
    intro segment later listed listed' below e f made made'
    rw [(entry_of segment listed e made).1, (entry_of later listed' f made').1]
    exact ⟨below.1, Bool.eq_false_iff.mpr fun above => below.2 (VectorClock.happensBefore_antisymm below.1 above)⟩
  · rw [← listed_iff]
    constructor
    · rintro ⟨e, member, rfl⟩
      obtain ⟨segment, listed, made⟩ := (members e).mp member
      rw [(entry_of segment listed e made).1]
      exact ⟨segment.2, listed⟩
    · rintro ⟨group, listed⟩
      obtain ⟨e, made, same, -⟩ := entry_spec _ listed
      exact ⟨e, (members e).mpr ⟨_, listed, made⟩, same⟩
  · obtain ⟨⟨v, group⟩, listed, made⟩ := (members e).mp member
    obtain ⟨rfl, bounds⟩ := entry_of _ listed e made
    exact ⟨group, group_iff _ group listed, bounds⟩

theorem EntriesOf.vc_injective {entries : List TimedEntry} (spec : p.EntriesOf m t entries) {e f : TimedEntry}
    (here : e ∈ entries) (here' : f ∈ entries) (same : e.vc = f.vc) : e = f := by
  have below : e.vc.happensBefore f.vc = true := same ▸ e.vc.happensBefore_refl
  have above : f.vc.happensBefore e.vc = true := same ▸ e.vc.happensBefore_refl
  exact Covers.eq_of_increasing spec.increasing here here' below above

theorem mem_table_of_segment {x : ThreadId × VectorClock} (segment : p.Segment m x) :
    (x.1, p.sumsOf m x.1) ∈ (p.accHisto m).accSumTable.toList := by
  obtain ⟨entry, listed, -⟩ := segment
  apply Std.ExtTreeMap.mem_toList_iff_getElem?_eq_some.mpr
  unfold sumsOf at listed ⊢
  cases stored : (p.accHisto m).accSumTable[x.1]? with
  | none => simp [stored] at listed
  | some ids => rfl

/-- The table has the segments of every thread. -/
structure TableOf (p : PredictorNew) (m : MetaId) (table : Covers.Chains ThreadId TimedEntry) : Prop where
  ordered : Covers.Ordered (fun e f : TimedEntry => e.vc.happensBefore f.vc) table
  chains : ∀ chain ∈ table, p.EntriesOf m chain.1 chain.2
  all : ∀ x, p.Segment m x → ∃ chain ∈ table, chain.1 = x.1

theorem Segmented.timedEntryTable (segmented : p.Segmented m) :
    ∃ table, p.timedEntryTable m = some table ∧ p.TableOf m table := by
  have own : ∀ entry ∈ (p.accHisto m).accSumTable.toList, entry.2 = p.sumsOf m entry.1 := by
    intro entry member
    rw [sumsOf, Std.ExtTreeMap.mem_toList_iff_getElem?_eq_some.mp member]
    rfl
  have entries_spec : ∀ entry ∈ (p.accHisto m).accSumTable.toList, ∃ entries,
      (p.timedEntryVec entry.2).map (entry.1, ·) = some (entry.1, entries) ∧ p.EntriesOf m entry.1 entries := by
    intro entry member
    obtain ⟨entries, made, spec⟩ := segmented.timedEntryVec entry.1
    rw [own entry member, made]
    exact ⟨entries, rfl, spec⟩
  obtain ⟨table, made, members, pairwise⟩ := Runs.mapM_some (l := (p.accHisto m).accSumTable.toList)
    (f := fun entry => (p.timedEntryVec entry.2).map (entry.1, ·)) (by
      intro entry member
      obtain ⟨entries, made, -⟩ := entries_spec entry member
      exact ⟨_, made⟩)
  have chains : ∀ chain ∈ table, p.EntriesOf m chain.1 chain.2 := by
    intro chain member
    obtain ⟨entry, listed, made⟩ := (members chain).mp member
    obtain ⟨entries, made', spec⟩ := entries_spec entry listed
    cases made.symm.trans made'
    exact spec
  refine ⟨table, made, ⟨fun _ _ _ => VectorClock.happensBefore_trans, ?_, fun chain member => (chains chain member).increasing⟩,
    chains, fun x segment => ?_⟩
  · apply pairwise
    refine List.Pairwise.imp ?_ (Std.ExtTreeMap.distinct_keys_toList (t := (p.accHisto m).accSumTable))
    intro entry other apart chain chain' made made'
    obtain ⟨_, _, rfl⟩ := Option.map_eq_some_iff.mp made
    obtain ⟨_, _, rfl⟩ := Option.map_eq_some_iff.mp made'
    exact fun same => apart (by simp [show entry.1 = other.1 from same])
  · have listed := mem_table_of_segment segment
    obtain ⟨entries, made, -⟩ := entries_spec _ listed
    exact ⟨_, (members _).mpr ⟨_, listed, made⟩, rfl⟩

namespace TableOf
variable {table : Covers.Chains ThreadId TimedEntry} {x y : ThreadId × TimedEntry}

theorem segment (spec : p.TableOf m table) (here : Covers.Element table x) : p.Segment m (x.1, x.2.vc) := by
  obtain ⟨chain, member, same, here⟩ := here
  exact same ▸ ((spec.chains chain member).segments x.2.vc).mp ⟨x.2, here, rfl⟩

theorem element (spec : p.TableOf m table) {z : ThreadId × VectorClock} (inside : p.Segment m z) :
    ∃ e : TimedEntry, Covers.Element table (z.1, e) ∧ e.vc = z.2 := by
  obtain ⟨chain, member, same⟩ := spec.all z inside
  obtain ⟨e, here, own⟩ := ((spec.chains chain member).segments z.2).mpr (by rw [same]; exact inside)
  exact ⟨e, ⟨chain, member, same, here⟩, own⟩

theorem injective (spec : p.TableOf m table) (here : Covers.Element table x) (here' : Covers.Element table y)
    (own : x.1 = y.1) (equal : x.2.vc = y.2.vc) : x = y := by
  obtain ⟨chain, member, same, here⟩ := here
  obtain ⟨chain', member', same', here'⟩ := here'
  cases spec.ordered.same_chain member member' (same.trans (own.trans same'.symm))
  exact Prod.ext own ((spec.chains chain member).vc_injective here here' equal)

/-- An immediate predecessor is a cover in the table. -/
theorem cover_iff (spec : p.TableOf m table) (source : Covers.Element table x) (target : Covers.Element table y) :
    Covers.Cover (fun e f : TimedEntry => e.vc.happensBefore f.vc) table x y ↔
      Immediate (p.Segment m) (x.1, x.2.vc) (y.1, y.2.vc) := by
  constructor
  · rintro ⟨-, -, apart, earlier, none_between⟩
    refine ⟨spec.segment source, spec.segment target, apart, earlier, fun z inside other_x other_y between => ?_⟩
    obtain ⟨e, here, own⟩ := spec.element inside
    rw [← own] at between
    refine none_between (z.1, e) here (fun same => other_x ?_) (fun same => other_y ?_) between
    · rw [← same, own]
    · rw [← same, own]
  · rintro ⟨-, -, apart, earlier, none_between⟩
    refine ⟨source, target, apart, earlier, fun z here other_x other_y => none_between _ (spec.segment here) ?_ ?_⟩
    · intro same
      exact other_x (spec.injective here source (Prod.mk.inj same).1 (Prod.mk.inj same).2)
    · intro same
      exact other_y (spec.injective here target (Prod.mk.inj same).1 (Prod.mk.inj same).2)

end TableOf

/-- With one thread there is nothing to consider. -/
theorem not_immediate_of_size (few : (p.accHisto m).accSumTable.size < 2) (x y : ThreadId × VectorClock) :
    ¬Immediate (p.Segment m) x y := by
  intro immediate
  have left := mem_table_of_segment immediate.source
  have right := mem_table_of_segment immediate.target
  rw [← Std.ExtTreeMap.length_toList] at few
  revert left right few
  generalize (p.accHisto m).accSumTable.toList = entries
  intro few left right
  match entries with
  | [] => exact nomatch left
  | [entry] =>
    have same := (List.mem_singleton.mp left).trans (List.mem_singleton.mp right).symm
    exact immediate.apart (Prod.mk.inj same).1
  | _ :: _ :: _ =>
    simp only [List.length_cons] at few
    omega

/-- The first and the last summary of a segment. -/
structure Bounds (p : PredictorNew) (m : MetaId) (x : ThreadId × VectorClock) (first last : ℕ) : Prop where
  group : ∃ group, (∀ entry, entry ∈ group ↔ p.InSegment m x.1 x.2 entry) ∧ p.IsFirst group first ∧ p.IsLast group last

theorem Segmented.consideredPairs (segmented : p.Segmented m) :
    ∃ (considered : List (ℕ × ℕ)) (first last : ThreadId × VectorClock → ℕ), p.consideredPairs m = some considered ∧
      (∀ x, p.Segment m x → p.Bounds m x (first x) (last x)) ∧
      ∀ s d, (s, d) ∈ considered ↔ ∃ x y, Immediate (p.Segment m) x y ∧ s = last x ∧ d = first y := by
  obtain ⟨table, made, spec⟩ := segmented.timedEntryTable
  have some_entry : ∀ x, ∃ e : TimedEntry, p.Segment m x → Covers.Element table (x.1, e) ∧ e.vc = x.2 := by
    intro x
    by_cases inside : p.Segment m x
    · obtain ⟨e, here⟩ := spec.element inside
      exact ⟨e, fun _ => here⟩
    · exact ⟨⟨x.2, 0, 0⟩, fun inside' => absurd inside' inside⟩
  choose entry entry_spec using some_entry
  have bounds : ∀ x, p.Segment m x → p.Bounds m x (entry x).first (entry x).last := by
    intro x inside
    obtain ⟨⟨chain, member, same, here⟩, own⟩ := entry_spec x inside
    obtain ⟨group, members, isFirst, isLast⟩ := (spec.chains chain member).groups _ here
    rw [same, own] at members
    exact ⟨group, members, isFirst, isLast⟩
  by_cases few : (p.accHisto m).accSumTable.size < 2
  · refine ⟨[], fun x => (entry x).first, fun x => (entry x).last, if_pos few, bounds, fun s d => ?_⟩
    refine iff_of_false List.not_mem_nil ?_
    rintro ⟨x, y, immediate, -⟩
    exact not_immediate_of_size few x y immediate
  · refine ⟨immediatePairs table, fun x => (entry x).first, fun x => (entry x).last, ?_, bounds, fun s d => ?_⟩
    · rw [PredictorNew.consideredPairs, if_neg few, made, Option.map_some]
    · have own : ∀ x, Covers.Element table x → x.2 = entry (x.1, x.2.vc) := by
        intro x here
        obtain ⟨here', same⟩ := entry_spec _ (spec.segment here)
        exact congrArg Prod.snd (spec.injective here here' rfl same.symm)
      rw [immediatePairs, List.mem_map]
      constructor
      · rintro ⟨⟨x, y⟩, considered, same⟩
        have cover := (Covers.mem_considered spec.ordered).mp considered
        obtain ⟨rfl, rfl⟩ := Prod.mk.inj same
        exact ⟨_, _, (spec.cover_iff cover.source cover.target).mp cover, congrArg (·.last) (own x cover.source),
          congrArg (·.first) (own y cover.target)⟩
      · rintro ⟨x, y, immediate, rfl, rfl⟩
        obtain ⟨source, same⟩ := entry_spec x immediate.source
        obtain ⟨target, same'⟩ := entry_spec y immediate.target
        have cover := (spec.cover_iff source target).mpr (by rw [same, same']; exact immediate)
        exact ⟨_, (Covers.mem_considered spec.ordered).mpr cover, rfl⟩

/-- The checks between two summaries of an ordered dependency. -/
def AllowsOrdered (p : PredictorNew) (s d : ℕ) : Prop :=
  ∃ src dst, p.accSums[s]? = some src ∧ p.accSums[d]? = some dst ∧ checkConflict src.type dst.type = true ∧
    checkMutexExclution src.fls dst.fls = true

theorem predictOrdered_spec {ix : PairIndex} {pair : ℕ × ℕ} {src dst : AccSum} (wf : ix.Wf)
    (found : p.accSums[pair.1]? = some src) (found' : p.accSums[pair.2]? = some dst) :
    ∃ next, p.predictOrdered ix pair = some next ∧ next.Wf ∧
      ∀ s d, d ∈ next.succOf s ↔ d ∈ ix.succOf s ∨ (s, d) = pair ∧ p.AllowsOrdered s d := by
  have allows_iff : p.AllowsOrdered pair.1 pair.2 ↔
      checkConflict src.type dst.type = true ∧ checkMutexExclution src.fls dst.fls = true := by
    simp only [AllowsOrdered, found, found', Option.some.injEq, exists_and_left, exists_eq_left']
  rw [predictOrdered, found, found']
  refine ⟨_, rfl, ?_⟩
  split
  · next passed =>
    simp only [Bool.and_eq_true, Bool.not_eq_true', Bool.eq_false_iff, ne_eq, PairIndex.existAccSumPair_iff] at passed
    obtain ⟨⟨conflict, new⟩, exclusion⟩ := passed
    refine ⟨wf.add new, fun s d => ?_⟩
    rw [PairIndex.mem_succOf_add]
    apply or_congr_right
    constructor
    · rintro ⟨rfl, rfl⟩
      exact ⟨rfl, allows_iff.mpr ⟨conflict, exclusion⟩⟩
    · rintro ⟨same, -⟩
      exact Prod.mk.inj same
  · next failed =>
    refine ⟨wf, fun s d => (or_iff_left_of_imp ?_).symm⟩
    rintro ⟨rfl, allowed⟩
    obtain ⟨conflict, exclusion⟩ := allows_iff.mp allowed
    by_contra new
    simp [conflict, exclusion, PairIndex.existAccSumPair, new] at failed

/-- The considered pairs that pass the checks are added, each once. -/
theorem predictOrdered_loop {ix : PairIndex} {pairs : List (ℕ × ℕ)} (wf : ix.Wf)
    (stored : ∀ pair ∈ pairs, ∃ src dst, p.accSums[pair.1]? = some src ∧ p.accSums[pair.2]? = some dst) :
    ∃ next, pairs.foldlM p.predictOrdered ix = some next ∧ next.Wf ∧
      ∀ s d, d ∈ next.succOf s ↔ d ∈ ix.succOf s ∨ (s, d) ∈ pairs ∧ p.AllowsOrdered s d := by
  induction pairs generalizing ix with
  | nil => exact ⟨ix, rfl, wf, by simp⟩
  | cons pair pairs ih =>
    obtain ⟨⟨src, dst, found, found'⟩, others⟩ := List.forall_mem_cons.mp stored
    obtain ⟨middle, stepped, wf, first⟩ := predictOrdered_spec wf found found'
    obtain ⟨next, ran, wf, rest⟩ := ih wf others
    refine ⟨next, by rw [List.foldlM_cons, stepped]; exact ran, wf, fun s d => ?_⟩
    rw [rest, first, or_assoc, List.mem_cons, or_and_right]

theorem Bounds.stored {x : ThreadId × VectorClock} {first last : ℕ} (bounds : p.Bounds m x first last) :
    (∃ a, p.accSums[first]? = some a) ∧ ∃ a, p.accSums[last]? = some a := by
  obtain ⟨group, members, ⟨_, ⟨info, here, -⟩, -⟩, ⟨_, ⟨info', here', -⟩, -⟩⟩ := bounds.group
  obtain ⟨-, a, found, -⟩ := (members _).mp here
  obtain ⟨-, b, found', -⟩ := (members _).mp here'
  exact ⟨⟨a, found⟩, ⟨b, found'⟩⟩

/-- What the update considers, and what it records. -/
structure Updated (p : PredictorNew) (m : MetaId) (considered : List (ℕ × ℕ)) (first last : ThreadId × VectorClock → ℕ)
    (pairs : PairIndex) : Prop where
  bounds : ∀ x, p.Segment m x → p.Bounds m x (first x) (last x)
  immediate : ∀ s d, (s, d) ∈ considered ↔ ∃ x y, Immediate (p.Segment m) x y ∧ s = last x ∧ d = first y
  recorded : ∀ s d, d ∈ pairs.succOf s ↔ d ∈ p.pairs.succOf s ∨ (s, d) ∈ considered ∧ p.AllowsOrdered s d
  wf : pairs.Wf

theorem Segmented.processAccSumPairUpdate (segmented : p.Segmented m) (wf : p.pairs.Wf) :
    ∃ considered first last pairs, p.consideredPairs m = some considered ∧
      p.processAccSumPairUpdate m = some { p with pairs := pairs } ∧ p.Updated m considered first last pairs := by
  obtain ⟨considered, first, last, made, bounds, immediate⟩ := segmented.consideredPairs
  have stored : ∀ pair ∈ considered, ∃ src dst, p.accSums[pair.1]? = some src ∧ p.accSums[pair.2]? = some dst := by
    rintro ⟨s, d⟩ member
    obtain ⟨x, y, between, rfl, rfl⟩ := (immediate s d).mp member
    obtain ⟨src, found⟩ := (bounds x between.source).stored.2
    obtain ⟨dst, found'⟩ := (bounds y between.target).stored.1
    exact ⟨src, dst, found, found'⟩
  obtain ⟨pairs, ran, wf, recorded⟩ := predictOrdered_loop wf stored
  refine ⟨considered, first, last, pairs, made, ?_, bounds, immediate, recorded, wf⟩
  simp only [PredictorNew.processAccSumPairUpdate, made, ran, Option.bind_eq_bind, Option.bind_some]
  rfl

end PredictorNew
end Maple.Idiom
