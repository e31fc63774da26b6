import Maple.Idiom.PairExact
import Maple.Idiom.TraceInv

/-! Every access waits in the table of last accesses until it is passed to `ProcessAccSumUpdate`, by
the next access of its thread or by the free. -/
namespace Maple.Idiom.Predictor
variable {h : List Happening} {live : MetaId → Prop} {calls : List Call} {p : PredictorNew} {m : MetaId}
  {t : ThreadId} {i n : ℕ}

/-- A relation that holds between the accesses of a thread in order. -/
def OrderedBy (R : Access → Access → Prop) (h : List Happening) : Prop :=
  h.Pairwise fun x y => ∀ a b, x = .access a → y = .access b → a.thdId = b.thdId → R a b

theorem OrderedBy.at {R : Access → Access → Prop} (ordered : OrderedBy R h) {j : ℕ} {a b : Access} (less : i < j)
    (found : h[i]? = some (.access a)) (found' : h[j]? = some (.access b)) (same : a.thdId = b.thdId) : R a b := by
  obtain ⟨bound, here⟩ := List.getElem?_eq_some_iff.mp found
  obtain ⟨bound', here'⟩ := List.getElem?_eq_some_iff.mp found'
  exact List.pairwise_iff_getElem.mp ordered i j bound bound' less a b here here' same

/-- The calls for a thread and a meta are in order, too. -/
theorem CallsOk.related {R : Access → Access → Prop} (ok : CallsOk live h calls) (ordered : OrderedBy R h) :
    calls.Pairwise fun call later => call.dynAcc.metaId = later.dynAcc.metaId →
      call.dynAcc.thdId = later.dynAcc.thdId → R call.dynAcc.access later.dynAcc.access := by
  refine ok.ordered.imp_of_mem ?_
  intro call later made made' follows same_meta same_thread
  obtain ⟨i, place, found, -⟩ := ok.placed call made
  obtain ⟨j, place', found', -⟩ := ok.placed later made'
  exact ordered.at (follows same_meta same_thread i j place place') found found' same_thread

theorem mem_clocksOf {acc : VectorClock × ℕ} : acc ∈ clocksOf calls n ↔
    ∃ call ∈ calls, call.accSum = n ∧ (call.dynAcc.vc, call.dynAcc.thdClk) = acc := by
  simp only [clocksOf, List.mem_map, List.mem_filter, decide_eq_true_eq, and_assoc]

namespace SumsOk

theorem clocks_related {R : Access → Access → Prop} {Q : VectorClock × ℕ → VectorClock × ℕ → Prop} (ok : SumsOk p calls)
    (related : calls.Pairwise fun call later => call.dynAcc.metaId = later.dynAcc.metaId →
      call.dynAcc.thdId = later.dynAcc.thdId → R call.dynAcc.access later.dynAcc.access)
    (implied : ∀ a b : Access, R a b → Q (a.vc, a.thdClk) (b.vc, b.thdClk)) : (clocksOf calls n).Pairwise Q := by
  apply List.pairwise_map.mpr
  refine (related.sublist List.filter_sublist).imp_of_mem ?_
  intro call later made made' follows
  obtain ⟨made, same⟩ := List.mem_filter.mp made
  obtain ⟨made', same'⟩ := List.mem_filter.mp made'
  obtain ⟨a, found, about⟩ := ok.about call made
  obtain ⟨a', found', about'⟩ := ok.about later made'
  rw [of_decide_eq_true same] at found
  rw [of_decide_eq_true same'] at found'
  cases found.symm.trans found'
  exact implied _ _ (follows (about.metaId.symm.trans about'.metaId) (about.thdId.symm.trans about'.thdId))

theorem compressed (ok : SumsOk p calls) (sorted : ∀ n, (clocksOf calls n).Pairwise NotAfter) {a : AccSum}
    (found : p.accSums[n]? = some a) : Compressed a.tinfo (clocksOf calls n) := by
  rw [ok.tinfo n a found]
  exact Compressed.fold (sorted n)

/-- The segments of a meta are those of the calls. -/
theorem segment_iff (ok : SumsOk p calls) (sorted : ∀ n, (clocksOf calls n).Pairwise NotAfter) (alive : m ∈ p.accHistos)
    {v : VectorClock} : p.Segment m (t, v) ↔
      ∃ call ∈ calls, call.dynAcc.metaId = m ∧ call.dynAcc.thdId = t ∧ call.dynAcc.vc = v := by
  constructor
  · rintro ⟨⟨s, info⟩, listed, a, found, inside⟩
    obtain ⟨b, found', rfl, rfl⟩ := (ok.listed m alive t s).mp listed
    cases found.symm.trans found'
    have value := ((ok.compressed sorted found).values v).mp (List.mem_map_of_mem inside)
    obtain ⟨acc, here, rfl⟩ := List.mem_map.mp value
    obtain ⟨call, made, same, rfl⟩ := mem_clocksOf.mp here
    obtain ⟨c, stored, about⟩ := ok.about call made
    rw [same] at stored
    cases found.symm.trans stored
    exact ⟨call, made, about.metaId.symm, about.thdId.symm, rfl⟩
  · rintro ⟨call, made, rfl, rfl, rfl⟩
    obtain ⟨a, found, about⟩ := ok.about call made
    have value := ((ok.compressed sorted found).values call.dynAcc.vc).mpr
      (List.mem_map_of_mem (mem_clocksOf.mpr ⟨call, made, rfl, rfl⟩))
    obtain ⟨e, inside, same⟩ := List.mem_map.mp value
    refine ⟨(call.accSum, e.2), (ok.listed _ alive _ _).mpr ⟨a, found, about.metaId, about.thdId⟩, a, found, ?_⟩
    dsimp only
    rw [← same]
    exact inside

theorem segmented (ok : SumsOk p calls) (alive : m ∈ p.accHistos) (related : calls.Pairwise fun call later =>
      call.dynAcc.metaId = later.dynAcc.metaId → call.dynAcc.thdId = later.dynAcc.thdId →
        call.dynAcc.vc.happensBefore later.dynAcc.vc = true) : p.Segmented m := by
  have sorted : ∀ n, (clocksOf calls n).Pairwise NotAfter := fun n =>
    ok.clocks_related (R := fun a b => a.vc.happensBefore b.vc = true) related fun _ _ => id
  constructor
  case stored =>
    intro t s listed
    obtain ⟨a, found, -⟩ := (ok.listed m alive t s).mp listed
    exact ⟨a, found, ok.nonempty s a found, (ok.compressed sorted found).increasing⟩
  case comparable =>
    intro t v w here here'
    obtain ⟨call, made, rfl, rfl, rfl⟩ := (ok.segment_iff sorted alive).mp here
    obtain ⟨other, made', same_meta, same_thread, rfl⟩ := (ok.segment_iff sorted alive).mp here'
    obtain ⟨i, bound, rfl⟩ := List.getElem_of_mem made
    obtain ⟨j, bound', rfl⟩ := List.getElem_of_mem made'
    rcases Nat.lt_trichotomy i j with less | rfl | more
    · exact Or.inl (List.pairwise_iff_getElem.mp related i j bound bound' less same_meta.symm same_thread.symm)
    · exact Or.inl (VectorClock.happensBefore_refl _)
    · exact Or.inr (List.pairwise_iff_getElem.mp related j i bound' bound more same_meta same_thread)

end SumsOk

namespace State

def lastDyn (s : State) (m : MetaId) (t : ThreadId) : Option DynAcc := (s.accHisto m).lastDynAccTable[t]?

/-- The invariant of every operation; in the metas that are `live` the last accesses wait. -/
structure Core (c : Config) (live : MetaId → Prop) (s : State) : Prop where
  lasts : ∀ m t i, s.lastOf m t = some i ↔ LastAt s.history m t i
  locks : LocksOk s.sync s.history
  clocks : ClocksOk s.sync s.history
  calls : CallsOk live s.history s.calls
  sums : SumsOk s.toPredictorNew s.calls
  pending : ∀ m t d, s.lastDyn m t = some d → ∃ i, s.lastOf m t = some i ∧ Pending s.history m t i d
  complete : ∀ i a, s.history[i]? = some (.access a) →
    Passed s.calls i ∨ s.lastOf a.metaId a.thdId = some i ∧ ∃ d, s.lastDyn a.metaId a.thdId = some d
  known : ∀ a, .access a ∈ s.history → a.metaId < s.nextMeta
  made : ∀ (n : ℕ) a, s.accSums[n]? = some a → a.metaId < s.nextMeta
  fresh : ∀ m ∈ s.accHistos, m < s.nextMeta
  recent : c.complexIdioms = true → ∀ t, RecentOk s.history s.lastOf s.calls t (s.recentInfo t)

/-- What a call of `ProcessAccSumUpdate` leaves alone. -/
structure Kept (s next : State) : Prop where
  sync : next.sync = s.sync
  history : next.history = s.history
  lastOf : next.lastOf = s.lastOf
  metaTable : next.metaTable = s.metaTable
  nextMeta : next.nextMeta = s.nextMeta
  lastDyn : ∀ m t, next.lastDyn m t = s.lastDyn m t
  live : ∀ m, m ∈ next.accHistos ↔ m ∈ s.accHistos

variable {c : Config} {s next : State} {d : DynAcc}

theorem Kept.trans {middle : State} (first : Kept s middle) (second : Kept middle next) : Kept s next where
  sync := second.sync.trans first.sync
  history := second.history.trans first.history
  lastOf := second.lastOf.trans first.lastOf
  metaTable := second.metaTable.trans first.metaTable
  nextMeta := second.nextMeta.trans first.nextMeta
  lastDyn m t := (second.lastDyn m t).trans (first.lastDyn m t)
  live m := (second.live m).trans (first.live m)

theorem Core.thread (core : Core c live s) (stored : s.lastDyn m t = some d) : d.metaId = m ∧ d.thdId = t := by
  obtain ⟨i, -, pending⟩ := core.pending m t d stored
  exact ⟨pending.metaId, pending.thdId⟩

theorem mem_of_lastDyn (stored : s.lastDyn m t = some d) : m ∈ s.accHistos := by
  apply Std.ExtTreeMap.mem_iff_isSome_getElem?.mpr
  unfold lastDyn PredictorNew.accHisto at stored
  cases found : s.accHistos[m]? with
  | none => simp [found] at stored
  | some histo => rfl

/-- The summary is given to the entry that waits for it. -/
theorem processRecentInfoMaturize_spec {accSum : AccSum} (found : s.accSums[n]? = some accSum)
    (ok : ∀ t, RecentOk s.history s.lastOf calls t (s.recentInfo t)) (last : s.lastOf accSum.metaId accSum.thdId = some i)
    (access : AccessAt s.history accSum.metaId accSum.thdId i) (waits : ¬Passed calls i) :
    ∃ riTable, s.processRecentInfoMaturize n = some { s with riTable } ∧
      ∀ t, RecentOk s.history s.lastOf (calls ++ [⟨some i, d, n⟩]) t (riTable[t]?.getD {}) := by
  obtain ⟨a, at_place, -, own⟩ := access
  have here : i ∈ placesOf s.history accSum.thdId := mem_placesOf.mpr ⟨a, at_place, own⟩
  obtain ⟨k, e, raw, entry, place, unset⟩ := (ok accSum.thdId).waiting last here waits
  let ri := s.recentInfo accSum.thdId
  refine ⟨s.riTable.insert accSum.thdId { ri with entryVec := ri.entryVec.set k { e with accSum := some n } }, ?_, fun t => ?_⟩
  · simp only [processRecentInfoMaturize, found, raw, entry, debugAssert_pos unset, Option.bind_eq_bind, Option.bind_some]
    rfl
  · rw [getElem?_insert_thread]
    split
    · next same =>
      subst same
      exact (ok accSum.thdId).matured place entry waits
    · next other =>
      refine (ok t).other fun listed => ?_
      obtain ⟨b, at_place', own'⟩ := mem_placesOf.mp listed
      cases at_place.symm.trans at_place'
      exact other (own.symm.trans own')

/-- One access is passed. -/
theorem passLast_spec (core : Core c live s) (stored : s.lastDyn m t = some d) (last : s.lastOf m t = some i)
    (waits : ¬Passed s.calls i) (currLs : Option LockSet) :
    ∃ next n, s.passLast c d currLs = some next ∧ Kept s next ∧
      next.calls = s.calls ++ [⟨some i, { d with fls := d.fls.updateLastFlag d.ls currLs }, n⟩] ∧
      SumsOk next.toPredictorNew next.calls ∧ (∀ (n : ℕ) a, next.accSums[n]? = some a → a.metaId < next.nextMeta) ∧
      (c.complexIdioms = true → ∀ t, RecentOk next.history next.lastOf next.calls t (next.recentInfo t)) := by
  obtain ⟨rfl, rfl⟩ := core.thread stored
  have alive := mem_of_lastDyn stored
  let closed : DynAcc := { d with fls := d.fls.updateLastFlag d.ls currLs }
  obtain ⟨base, n, ran, passed⟩ := PredictorNew.processAccSumUpdate_passed c.ptrs s.atomicInstSet.contains
    closed (core.sums.listed _ alive) alive core.sums.nonempty core.sums.wf
  obtain ⟨accSum, found, about, -⟩ := passed.summary
  have access := ((core.lasts _ _ _).mp last).here
  have made : ∀ (k : ℕ) a, base.accSums[k]? = some a → a.metaId < s.nextMeta := by
    intro k a found'
    by_cases own : k = n
    · subst own
      cases found.symm.trans found'
      rw [show accSum.metaId = d.metaId from about.metaId]
      exact core.fresh _ alive
    · exact core.made k a (passed.others k own ▸ found')
  have lastDyn : ∀ m t, (base.accHisto m).lastDynAccTable[t]? = s.lastDyn m t := fun m t => by
    rw [passed.last]
    rfl
  have kept : ∀ m, m ∈ base.accHistos ↔ m ∈ s.accHistos := fun m =>
    (passed.live m).trans (or_iff_right_of_imp fun same => same ▸ alive)
  have sums : SumsOk base (s.calls ++ [⟨some i, closed, n⟩]) := core.sums.passed passed alive
  have summarised : s.summarise c closed =
      some ({ s with toPredictorNew := base, calls := s.calls ++ [⟨some i, closed, n⟩] }, n) := by
    rw [summarise, ran]
    exact congrArg (fun place => some (({ s with
      toPredictorNew := base
      calls := s.calls ++ [⟨place, closed, n⟩] } : State), n)) last
  cases complex : c.complexIdioms with
  | false =>
    refine ⟨{ s with toPredictorNew := base, calls := s.calls ++ [⟨some i, closed, n⟩] }, n, ?_,
      ⟨passed.sync, rfl, rfl, rfl, rfl, lastDyn, kept⟩, rfl, sums, made, nofun⟩
    rw [passLast, summarised]
    simp [complex]
  | true =>
    have ok := core.recent complex
    obtain ⟨riTable, matured, ok'⟩ := processRecentInfoMaturize_spec (d := closed)
      (s := { s with toPredictorNew := base, calls := s.calls ++ [⟨some i, closed, n⟩] }) found ok
      (by rw [about.metaId, about.thdId]; exact last) (by rw [about.metaId, about.thdId]; exact access) waits
    refine ⟨{ s with toPredictorNew := base, calls := s.calls ++ [⟨some i, closed, n⟩], riTable := riTable }, n, ?_,
      ⟨passed.sync, rfl, rfl, rfl, rfl, lastDyn, kept⟩, rfl, sums, made, fun _ => ok'⟩
    rw [passLast, summarised]
    simp only [complex, if_true, Option.bind_eq_bind, Option.bind_some]
    exact matured

theorem Core.kept (core : Core c live s) (kept : Kept s next) (grown : ∀ i, Passed s.calls i → Passed next.calls i)
    (calls : CallsOk live next.history next.calls) (sums : SumsOk next.toPredictorNew next.calls)
    (made : ∀ (n : ℕ) a, next.accSums[n]? = some a → a.metaId < next.nextMeta)
    (recent : c.complexIdioms = true → ∀ t, RecentOk next.history next.lastOf next.calls t (next.recentInfo t)) :
    Core c live next where
  lasts := by
    rw [kept.lastOf, kept.history]
    exact core.lasts
  locks := by
    rw [kept.sync, kept.history]
    exact core.locks
  clocks := by
    rw [kept.sync, kept.history]
    exact core.clocks
  calls := calls
  sums := sums
  pending := by
    intro m t d stored
    rw [kept.lastDyn] at stored
    rw [kept.lastOf, kept.history]
    exact core.pending m t d stored
  complete := by
    intro i a found
    rw [kept.history] at found
    rw [kept.lastOf, kept.lastDyn]
    exact (core.complete i a found).imp_left (grown i)
  known := by
    rw [kept.history, kept.nextMeta]
    exact core.known
  made := made
  fresh := by
    intro m alive
    rw [kept.nextMeta]
    exact core.fresh m ((kept.live m).mp alive)
  recent := recent

/-- What has been passed is older than the access that waits. -/
theorem Core.newest (core : Core c live s) (last : s.lastOf m t = some i) (waits : ¬Passed s.calls i) {k : ℕ}
    (access : AccessAt s.history m t k) (passed : Passed s.calls k) : k < i := by
  refine Nat.lt_of_le_of_ne (((core.lasts m t i).mp last).newest k access) ?_
  rintro rfl
  exact waits passed

/-- One round of the loop of `ProcessFree`. -/
theorem Core.passFreed (core : Core c live s) (dying : ¬live m) (stored : s.lastDyn m t = some d)
    (waits : ∀ i, s.lastOf m t = some i → ¬Passed s.calls i) :
    ∃ next i, s.passLast c d none = some next ∧ Kept s next ∧ Core c live next ∧ s.lastOf m t = some i ∧
      ∀ k, Passed next.calls k ↔ Passed s.calls k ∨ k = i := by
  obtain ⟨i, last, pending⟩ := core.pending m t d stored
  obtain ⟨next, n, ran, kept, calls, sums, made, recent⟩ := passLast_spec core stored last (waits i last) none
  have passed : ∀ k, Passed next.calls k ↔ Passed s.calls k ∨ k = i := by
    intro k
    rw [calls, passed_append, Option.some.injEq, eq_comm]
  refine ⟨next, i, ran, kept, core.kept kept (fun k old => (passed k).mpr (Or.inl old)) ?_ sums made recent, last, passed⟩
  obtain ⟨same_meta, same_thread⟩ := core.thread stored
  rw [calls, kept.history]
  apply core.calls.push
  · exact pending.access
  · dsimp only
    rw [same_meta, same_thread]
    exact flagsExact_free pending.snapshot pending.first pending.unset ((core.lasts m t i).mp last)
  · dsimp only
    rw [same_meta, same_thread]
    exact fun k access old => core.newest last (waits i last) access old
  · intro alive
    exact absurd (same_meta ▸ alive) dying

theorem Core.flushLoop (core : Core c live s) (dying : ¬live m) (entries : List (ThreadId × DynAcc))
    (stored : ∀ entry ∈ entries, s.lastDyn m entry.1 = some entry.2) (distinct : entries.Pairwise fun e f => e.1 ≠ f.1)
    (waits : ∀ entry ∈ entries, ∀ i, s.lastOf m entry.1 = some i → ¬Passed s.calls i) :
    ∃ next, entries.foldlM (fun s entry => s.passLast c entry.2 none) s = some next ∧ Kept s next ∧ Core c live next ∧
      (∀ i, Passed s.calls i → Passed next.calls i) ∧
      ∀ entry ∈ entries, ∀ i, s.lastOf m entry.1 = some i → Passed next.calls i := by
  induction entries generalizing s with
  | nil => exact ⟨s, rfl, ⟨rfl, rfl, rfl, rfl, rfl, fun _ _ => rfl, fun _ => Iff.rfl⟩, core, fun _ => id, nofun⟩
  | cons entry rest ih =>
    obtain ⟨apart, distinct⟩ := List.pairwise_cons.mp distinct
    obtain ⟨storedHere, stored⟩ := List.forall_mem_cons.mp stored
    obtain ⟨waitsHere, waits⟩ := List.forall_mem_cons.mp waits
    obtain ⟨middle, i, ran, kept, core', last, passed⟩ := core.passFreed dying storedHere waitsHere
    have still : ∀ other ∈ rest, ∀ k, middle.lastOf m other.1 = some k → ¬Passed middle.calls k := by
      intro other member k last' again
      rw [kept.lastOf] at last'
      rcases (passed k).mp again with old | rfl
      · exact waits other member k last' old
      · obtain ⟨a, found, -, own⟩ := ((core.lasts _ _ _).mp last).here
        obtain ⟨b, found', -, own'⟩ := ((core.lasts _ _ _).mp last').here
        cases found.symm.trans found'
        exact apart other member (own.symm.trans own')
    obtain ⟨next, looped, kept', core', grown, done⟩ := ih core'
      (fun other member => (kept.lastDyn m other.1).trans (stored other member)) distinct still
    refine ⟨next, by rw [List.foldlM_cons, ran]; exact looped, kept.trans kept', core',
      fun k old => grown k ((passed k).mpr (Or.inl old)), ?_⟩
    refine List.forall_mem_cons.mpr ⟨fun k last' => ?_, fun other member k last' => ?_⟩
    · cases last.symm.trans last'
      exact grown i ((passed i).mpr (Or.inr rfl))
    · exact done other member k (kept.lastOf ▸ last')

/-- After the loop of `ProcessFree` every access of the meta has been passed. -/
theorem Core.flush (core : Core c (· ∈ s.accHistos) s) (m : MetaId) :
    ∃ next, s.flush c m = some next ∧ Kept s next ∧ Core c (fun m' => m' ∈ s.accHistos ∧ m' ≠ m) next ∧
      ∀ i t, AccessAt s.history m t i → Passed next.calls i := by
  have weaker : Core c (fun m' => m' ∈ s.accHistos ∧ m' ≠ m) s :=
    { core with calls := core.calls.mono fun _ => And.left }
  have stored : ∀ entry ∈ (s.accHisto m).lastDynAccTable.toList, s.lastDyn m entry.1 = some entry.2 := fun entry member =>
    Std.ExtTreeMap.mem_toList_iff_getElem?_eq_some.mp member
  obtain ⟨next, ran, kept, core', grown, done⟩ := weaker.flushLoop (fun dying => dying.2 rfl)
    (s.accHisto m).lastDynAccTable.toList stored
    (Std.ExtTreeMap.distinct_keys_toList.imp fun apart same => apart (by simp [same]))
    (fun entry member i last => core.calls.waits (mem_of_lastDyn (stored entry member)) ((core.lasts _ _ _).mp last))
  refine ⟨next, ran, kept, core', ?_⟩
  rintro i t ⟨a, found, rfl, rfl⟩
  rcases core.complete i a found with passed | ⟨last, d, waiting⟩
  · exact grown i passed
  · exact done (a.thdId, d) (Std.ExtTreeMap.mem_toList_iff_getElem?_eq_some.mpr waiting) i last

/-- The meta is dead, and everything else as it was. -/
structure Freed (s next : State) (m : MetaId) : Prop where
  sync : next.sync = s.sync
  history : next.history = s.history
  metaTable : next.metaTable = s.metaTable
  nextMeta : next.nextMeta = s.nextMeta
  live : ∀ m', m' ∈ next.accHistos ↔ m' ∈ s.accHistos ∧ m' ≠ m

theorem accHisto_erase (p : PredictorNew) (m m' : MetaId) :
    ({ p with accHistos := p.accHistos.erase m } : PredictorNew).accHisto m' = if m = m' then {} else p.accHisto m' := by
  simp only [PredictorNew.accHisto, Std.ExtTreeMap.getElem?_erase, Nat.compare_eq_eq]
  split <;> rfl

theorem Core.vc_related (core : Core c live s) : s.calls.Pairwise fun call later =>
    call.dynAcc.metaId = later.dynAcc.metaId → call.dynAcc.thdId = later.dynAcc.thdId →
      call.dynAcc.vc.happensBefore later.dynAcc.vc = true :=
  core.calls.related (R := fun a b => a.vc.happensBefore b.vc = true) core.clocks.ordered

theorem Core.processFree (core : Core c (· ∈ s.accHistos) s) (alive : m ∈ s.accHistos) :
    ∃ next, s.processFree c m = some next ∧ Core c (· ∈ next.accHistos) next ∧ Freed s next m := by
  obtain ⟨flushed, ran, kept, core, all⟩ := core.flush m
  have alive' : m ∈ flushed.accHistos := (kept.live m).mpr alive
  obtain ⟨considered, first, last, pairs, -, updated, spec⟩ :=
    (core.sums.segmented alive' core.vc_related).processAccSumPairUpdate core.sums.wf
  let base : PredictorNew := { flushed.toPredictorNew with pairs := pairs }
  have sums : SumsOk base flushed.calls :=
    ⟨core.sums.listed, core.sums.tinfo, core.sums.nonempty, core.sums.about, spec.wf⟩
  have live_iff : ∀ m', m' ∈ base.accHistos.erase m ↔ m' ∈ s.accHistos ∧ m' ≠ m := by
    intro m'
    rw [Std.ExtTreeMap.mem_erase, Ne, Nat.compare_eq_eq, kept.live m', and_comm, eq_comm]
  have histo : ∀ m', m' ∈ base.accHistos.erase m →
      ({ base with accHistos := base.accHistos.erase m } : PredictorNew).accHisto m' = base.accHisto m' := by
    intro m' alive
    rw [accHisto_erase, if_neg (Ne.symm ((live_iff m').mp alive).2)]
  let freed : State := { flushed with toPredictorNew := { base with accHistos := base.accHistos.erase m } }
  have sums_freed : SumsOk { base with accHistos := base.accHistos.erase m } flushed.calls := by
    apply sums.histos
    · intro m' alive t
      rw [PredictorNew.sumsOf, histo m' alive]
      rfl
    · exact fun m' alive => Or.inl (Std.ExtTreeMap.mem_of_mem_erase alive)
    · exact fun m' alive absent => absurd (Std.ExtTreeMap.mem_of_mem_erase alive) absent
  have lastDyn : ∀ m' t, freed.lastDyn m' t = if m = m' then none else flushed.lastDyn m' t := by
    intro m' t
    rw [lastDyn, accHisto_erase]
    split
    · simp
    · rfl
  refine ⟨freed, ?_, ?_, ⟨kept.sync, kept.history, kept.metaTable, kept.nextMeta, live_iff⟩⟩
  · rw [State.processFree, if_pos alive, ran]
    simp only [updated, Option.bind_eq_bind, Option.bind_some]
    rfl
  · constructor
    case lasts => exact core.lasts
    case locks => exact core.locks
    case clocks => exact core.clocks
    case calls => exact core.calls.mono fun m' alive => (live_iff m').mp alive
    case sums => exact sums_freed
    case pending =>
      intro m' t d stored
      rw [lastDyn] at stored
      split at stored
      · cases stored
      · exact core.pending m' t d stored
    case complete =>
      intro i a found
      by_cases own : m = a.metaId
      · exact Or.inl (all i a.thdId ⟨a, by rw [← kept.history]; exact found, own.symm, rfl⟩)
      · rw [lastDyn, if_neg own]
        exact core.complete i a found
    case known => exact core.known
    case made => exact core.made
    case fresh => exact fun m' alive => core.fresh m' (Std.ExtTreeMap.mem_of_mem_erase alive)
    case recent => exact core.recent

section Record
variable {s₁ : State} {ls : LockSet}

theorem record_frame (c : Config) (s : State) (d : DynAcc) : (s.record c d).sync = s.sync ∧
    (s.record c d).history = s.history ++ [.access d.access] ∧ (s.record c d).metaTable = s.metaTable ∧
    (s.record c d).nextMeta = s.nextMeta ∧ (s.record c d).calls = s.calls ∧
    (s.record c d).toPredictorNew = s.toPredictorNew.setLastDynAcc d ∧
    (s.record c d).lastOf = fun m t => if m = d.metaId ∧ t = d.thdId then some s.history.length else s.lastOf m t := by
  unfold record
  split <;> exact ⟨rfl, rfl, rfl, rfl, rfl, rfl, rfl⟩

theorem recentInfo_record (complex : c.complexIdioms = true) (t : ThreadId) : (s.record c d).recentInfo t =
    if d.thdId = t then
      { entryVec := (s.recentInfo t).entryVec ++ [⟨d.thdClk, none, d.vc, d.ls, d.metaId⟩]
        rawEntryIndex := (s.recentInfo t).rawEntryIndex.insert d.metaId (s.recentInfo t).entryVec.length }
    else s.recentInfo t := by
  unfold record
  rw [if_pos complex]
  simp only [processRecentInfoUpdate, State.recentInfo, getElem?_insert_thread]
  split
  · next same =>
    subst same
    rfl
  · rfl

theorem mem_accHistos_record (alive : d.metaId ∈ s.accHistos) : m ∈ (s.record c d).accHistos ↔ m ∈ s.accHistos := by
  obtain ⟨-, -, -, -, -, base, -⟩ := record_frame c s d
  rw [show (s.record c d).accHistos = (s.toPredictorNew.setLastDynAcc d).accHistos from congrArg (·.accHistos) base,
    PredictorNew.setLastDynAcc, Std.ExtTreeMap.mem_insert, Nat.compare_eq_eq]
  exact or_iff_right_of_imp fun same => same ▸ alive

theorem lastDyn_record : (s.record c d).lastDyn m t =
    if m = d.metaId ∧ t = d.thdId then some d else s.lastDyn m t := by
  obtain ⟨-, -, -, -, -, base, -⟩ := record_frame c s d
  rw [State.lastDyn, State.lastDyn, base, PredictorNew.last_setLastDynAcc]

/-- The new access is the last one of its thread to its meta, and of no other. -/
theorem Core.lasts_record (core : Core c live s) :
    (if m = d.metaId ∧ t = d.thdId then some s.history.length else s.lastOf m t) = some i ↔
      LastAt (s.history ++ [.access d.access]) m t i := by
  split
  · next own =>
    have new_access : AccessAt (s.history ++ [.access d.access]) m t s.history.length :=
      accessAt_length.mpr ⟨d.access, rfl, own.1.symm, own.2.symm⟩
    rw [lastAt_new new_access, Option.some.injEq, eq_comm]
  · next other =>
    have other_access : ¬AccessAt (s.history ++ [.access d.access]) m t s.history.length := by
      intro here
      obtain ⟨a, same, rfl, rfl⟩ := accessAt_length.mp here
      cases same
      exact other ⟨rfl, rfl⟩
    rw [lastAt_other other_access]
    exact core.lasts m t i

/-- An access is passed, or the new one has not replaced it. -/
theorem Core.complete_record (core : Core c live s) (grown : ∀ i, Passed s.calls i → Passed s₁.calls i)
    (replaced : ∀ i, s.lastOf d.metaId d.thdId = some i → Passed s₁.calls i) {a : Access}
    (found : (s.history ++ [.access d.access])[i]? = some (.access a)) :
    Passed s₁.calls i ∨
      (if a.metaId = d.metaId ∧ a.thdId = d.thdId then some s.history.length else s.lastOf a.metaId a.thdId) = some i ∧
        ∃ d', (if a.metaId = d.metaId ∧ a.thdId = d.thdId then some d else s.lastDyn a.metaId a.thdId) = some d' := by
  have bound := (List.getElem?_eq_some_iff.mp found).1
  rw [List.length_append, List.length_singleton] at bound
  rcases Nat.lt_succ_iff_lt_or_eq.mp bound with before | rfl
  · rw [List.getElem?_append_left before] at found
    rcases core.complete i a found with passed | ⟨last, waiting⟩
    · exact Or.inl (grown i passed)
    · by_cases own : a.metaId = d.metaId ∧ a.thdId = d.thdId
      · exact Or.inl (replaced i (by rw [← own.1, ← own.2]; exact last))
      · rw [if_neg own, if_neg own]
        exact Or.inr ⟨last, waiting⟩
  · rw [List.getElem?_concat_length] at found
    cases found
    exact Or.inr ⟨if_pos ⟨rfl, rfl⟩, d, if_pos ⟨rfl, rfl⟩⟩

/-- The last access of the thread has been passed, and the new one takes its place. -/
theorem Core.record (core : Core c (· ∈ s.accHistos) s) (kept : Kept s s₁) (alive : d.metaId ∈ s.accHistos)
    (now : s.sync.currVcMap[d.thdId]? = some d.vc) (held : s.sync.currLsMap[d.thdId]? = some d.ls)
    (first : FirstExact s.history d.metaId d.thdId s.history.length d.fls)
    (unset : ∀ (l : Address) flag, d.fls.lockFlagTable[l]? = some flag → flag.2 = false)
    (grown : ∀ i, Passed s.calls i → Passed s₁.calls i) (known : ∀ i, Passed s₁.calls i → i < s.history.length)
    (replaced : ∀ i, s.lastOf d.metaId d.thdId = some i → Passed s₁.calls i)
    (calls : CallsOk (· ∈ s.accHistos) (s.history ++ [.access d.access]) s₁.calls)
    (sums : SumsOk s₁.toPredictorNew s₁.calls) (made : ∀ (n : ℕ) a, s₁.accSums[n]? = some a → a.metaId < s₁.nextMeta)
    (recent : c.complexIdioms = true → ∀ t, RecentOk s₁.history s₁.lastOf s₁.calls t (s₁.recentInfo t)) :
    Core c (· ∈ (s₁.record c d).accHistos) (s₁.record c d) := by
  obtain ⟨sync, history, -, nextMeta, same_calls, base, lastOf⟩ := record_frame c s₁ d
  rw [kept.sync] at sync
  rw [kept.history] at history
  rw [kept.lastOf, kept.history] at lastOf
  rw [kept.nextMeta] at nextMeta
  have snapshot := core.locks.snapshots _ _ held
  have live_iff : ∀ m, m ∈ (s₁.record c d).accHistos ↔ m ∈ s.accHistos := fun m =>
    (mem_accHistos_record ((kept.live _).mpr alive)).trans (kept.live m)
  have lastDyn : ∀ m t, (s₁.record c d).lastDyn m t = if m = d.metaId ∧ t = d.thdId then some d else s.lastDyn m t := by
    intro m t
    rw [lastDyn_record, kept.lastDyn]
  constructor
  case lasts =>
    intro m t i
    rw [history, lastOf]
    exact core.lasts_record
  case locks =>
    rw [sync, history]
    exact core.locks.access
  case clocks =>
    rw [sync, history]
    exact core.clocks.access now
  case calls =>
    rw [history, same_calls]
    exact calls.mono fun m alive => (live_iff m).mp alive
  case sums =>
    rw [base, same_calls]
    refine sums.histos (fun m _ t => PredictorNew.sumsOf_setLastDynAcc _ d m t) (fun m here => ?_) (fun m here absent => ?_)
    · exact Or.inl ((kept.live m).mpr ((live_iff m).mp (by rw [base]; exact here)))
    · exact absurd ((kept.live m).mpr ((live_iff m).mp (by rw [base]; exact here))) absent
  case pending =>
    intro m t d' stored
    rw [lastDyn] at stored
    rw [lastOf, history]
    dsimp only
    split at stored
    · next own =>
      cases stored
      obtain ⟨rfl, rfl⟩ := own
      exact ⟨s.history.length, if_pos ⟨rfl, rfl⟩, ⟨rfl, rfl, List.getElem?_concat_length, snapshot.append le_rfl,
        first.append le_rfl, unset⟩⟩
    · next other =>
      obtain ⟨i, last, pending⟩ := core.pending m t d' stored
      exact ⟨i, (if_neg other).trans last, pending.append⟩
  case complete =>
    intro i a found
    rw [history] at found
    rw [lastOf, lastDyn, same_calls]
    exact core.complete_record grown replaced found
  case known =>
    intro a member
    rw [history] at member
    rw [nextMeta]
    rcases List.mem_append.mp member with old | new
    · exact core.known a old
    · cases List.mem_singleton.mp new
      exact core.fresh _ alive
  case made =>
    intro n a found
    rw [nextMeta, ← kept.nextMeta]
    rw [base] at found
    exact made n a found
  case fresh =>
    intro m here
    rw [nextMeta]
    exact core.fresh m ((live_iff m).mp here)
  case recent =>
    intro complex t
    have ok := recent complex t
    rw [kept.history, kept.lastOf] at ok
    rw [history, lastOf, same_calls, recentInfo_record complex]
    split
    · next own =>
      subst own
      refine ok.record (a := d.access) rfl snapshot (fun m i last => ?_) fun passed => (known _ passed).false
      exact ((core.lasts m _ i).mp last).here.lt
    · next other =>
      exact ok.extend (decide_eq_false other) fun m => if_neg fun own => other own.2.symm

end Record

/-- An access has happened, and nothing else. -/
structure Accessed (s next : State) (a : Access) : Prop where
  sync : next.sync = s.sync
  history : next.history = s.history ++ [.access a]
  metaTable : next.metaTable = s.metaTable
  nextMeta : next.nextMeta = s.nextMeta
  live : ∀ m, m ∈ next.accHistos ↔ m ∈ s.accHistos

theorem Kept.record (kept : Kept s next) (alive : d.metaId ∈ s.accHistos) : Accessed s (next.record c d) d.access := by
  obtain ⟨sync, history, metaTable, nextMeta, -, -, -⟩ := record_frame c next d
  exact ⟨sync.trans kept.sync, by rw [history, kept.history], metaTable.trans kept.metaTable,
    nextMeta.trans kept.nextMeta, fun m => (mem_accHistos_record ((kept.live _).mpr alive)).trans (kept.live m)⟩

theorem updateFirstFlag_unset (lastLs currLs : LockSet) (l : Address) (flag : Bool × Bool)
    (found : (({} : FLockSet).updateFirstFlag lastLs currLs).lockFlagTable[l]? = some flag) : flag.2 = false := by
  rw [getElem?_updateFirstFlag] at found
  obtain ⟨v, -, rfl⟩ := Option.map_eq_some_iff.mp found
  rfl

theorem Core.passed_lt (core : Core c live s) (passed : Passed s.calls i) : i < s.history.length := by
  obtain ⟨call, made, place⟩ := passed
  exact (core.calls.accessAt made place).lt

/-- An access of a started thread to a live meta never fails. -/
theorem Core.processiRootEvent (core : Core c (· ∈ s.accHistos) s) (alive : m ∈ s.accHistos)
    (started : t ∈ s.sync.currLsMap) (clk : ℕ) (type : IRootEventType) (inst : InstId) :
    ∃ next vc, s.processiRootEvent c t clk type inst m = some next ∧ Core c (· ∈ next.accHistos) next ∧
      Accessed s next ⟨m, t, clk, type, inst, vc⟩ := by
  obtain ⟨vc, now⟩ := Option.isSome_iff_exists.mp (Std.ExtTreeMap.mem_iff_isSome_getElem?.mp (core.locks.clocked t started))
  obtain ⟨ls, held⟩ := Option.isSome_iff_exists.mp (Std.ExtTreeMap.mem_iff_isSome_getElem?.mp started)
  obtain ⟨histo, stored⟩ := Option.isSome_iff_exists.mp (Std.ExtTreeMap.mem_iff_isSome_getElem?.mp alive)
  have lookup : histo.lastDynAccTable[t]? = s.lastDyn m t := by
    rw [lastDyn, PredictorNew.accHisto, stored]
    rfl
  have snapshot := core.locks.snapshots t ls held
  have extended := core.calls.extend (x := .access ⟨m, t, clk, type, inst, vc⟩) fun a same => by
    cases same
    exact alive
  simp only [State.processiRootEvent, now, held, stored, Option.bind_eq_bind, Option.bind_some]
  cases last : histo.lastDynAccTable[t]? with
  | none =>
    have never : s.lastOf m t = none := by
      apply Option.eq_none_iff_forall_ne_some.mpr
      intro i lastOf
      have lastAt := (core.lasts m t i).mp lastOf
      obtain ⟨a, found, rfl, rfl⟩ := lastAt.here
      rcases core.complete i a found with passed | ⟨-, d, waiting⟩
      · exact core.calls.waits alive lastAt passed
      · cases last.symm.trans (lookup.trans waiting)
    have unaccessed : ∀ k, ¬AccessAt s.history m t k := by
      intro k access
      obtain ⟨i, lastAt⟩ := exists_lastAt access
      cases never.symm.trans ((core.lasts m t i).mpr lastAt)
    let d : DynAcc := ⟨m, t, clk, type, inst, vc, ls, ({} : FLockSet).updateFirstFlag ∅ ls⟩
    have kept : Kept s s := ⟨rfl, rfl, rfl, rfl, rfl, fun _ _ => rfl, fun _ => Iff.rfl⟩
    refine ⟨s.record c d, vc, rfl, ?_, kept.record (d := d) alive⟩
    apply core.record kept alive now held
    · exact firstExact_new snapshot (Or.inl ⟨unaccessed, rfl⟩)
    · exact updateFirstFlag_unset ∅ ls
    · exact fun _ => id
    · exact fun i => core.passed_lt
    · exact fun i lastOf => by cases never.symm.trans lastOf
    · exact extended
    · exact core.sums
    · exact core.made
    · exact core.recent
  | some d =>
    rw [lookup] at last
    obtain ⟨i, lastOf, pending⟩ := core.pending m t d last
    have lastAt := (core.lasts m t i).mp lastOf
    have waits := core.calls.waits alive lastAt
    obtain ⟨next, n, ran, kept, calls, sums, made, recent⟩ := passLast_spec core last lastOf waits (some ls)
    have passed : ∀ k, Passed next.calls k ↔ Passed s.calls k ∨ k = i := by
      intro k
      rw [calls, passed_append, Option.some.injEq, eq_comm]
    obtain ⟨same_meta, same_thread⟩ := core.thread last
    have new_access : AccessAt (s.history ++ [.access ⟨m, t, clk, type, inst, vc⟩]) m t s.history.length :=
      accessAt_length.mpr ⟨_, rfl, rfl, rfl⟩
    let d' : DynAcc := ⟨m, t, clk, type, inst, vc, ls, ({} : FLockSet).updateFirstFlag d.ls ls⟩
    dsimp only
    rw [ran, Option.bind_some]
    refine ⟨next.record c d', vc, rfl, ?_, kept.record (d := d') alive⟩
    apply core.record kept alive now held
    · exact firstExact_new snapshot (Or.inr ⟨i, lastAt, pending.snapshot⟩)
    · exact updateFirstFlag_unset d.ls ls
    · exact fun k old => (passed k).mpr (Or.inl old)
    · intro k either
      rcases (passed k).mp either with old | rfl
      · exact core.passed_lt old
      · exact lastAt.here.lt
    · intro k lastOf'
      cases lastOf.symm.trans lastOf'
      exact (passed i).mpr (Or.inr rfl)
    · rw [calls]
      apply extended.push
      · exact (List.getElem?_append_left lastAt.here.lt).trans pending.access
      · dsimp only
        rw [same_meta, same_thread]
        exact flagsExact_next pending.snapshot pending.first pending.unset lastAt snapshot new_access
      · dsimp only
        rw [same_meta, same_thread]
        exact fun k access old => core.newest lastOf waits ((accessAt_append (core.passed_lt old)).mp access) old
      · dsimp only
        rw [same_meta, same_thread]
        exact fun _ => ⟨s.history.length, lastAt.here.lt, new_access⟩
    · exact sums
    · exact made
    · exact recent

end State
end Maple.Idiom.Predictor
