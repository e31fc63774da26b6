import Maple.Pintool.FastTrack
import Maple.Race.SameEpoch

/-! FastTrack against Djit. As long as FastTrack skips only accesses of the thread
that owns the remembered epoch, the epochs and the reader clock stand for every
access, and no unit that Djit marks is missed. -/
namespace Maple.Pintool
open Race

/-- The epoch as a stamp. -/
def Epoch.stamp (e : Epoch) : ThreadId × ℕ := (e.tid, e.clock)

theorem Epoch.stamp_eq_blank (e : Epoch) : e.stamp = (0, 0) ↔ e = {} := by
  simp [Epoch.stamp, Epoch.ext_iff]

/-- The same-epoch test of an access of kind `k` succeeds. -/
def FastTrackMeta.skips (m : FastTrackMeta) (k : RaceEventType) (currVc : VectorClock) : Prop :=
  (m.lastEpoch k).equal currVc = true

instance (m : FastTrackMeta) (k : RaceEventType) (currVc : VectorClock) :
    Decidable (m.skips k currVc) := inferInstanceAs (Decidable (_ = _))

/-- An access of `curr` is skipped only in an epoch of `curr`. -/
def OwnSkip (d : Detector Unit FastTrackMeta) (k : RaceEventType) (curr : ThreadId) (x : Address) : Prop :=
  gate d.toDetectorBase = true → ∀ currVc ∈ d.currVcMap[curr]?,
    (d.metaTable[x]?.getD {}).skips k currVc → ((d.metaTable[x]?.getD {}).lastEpoch k).tid = curr

instance (d : Detector Unit FastTrackMeta) (k : RaceEventType) (curr : ThreadId) (x : Address) :
    Decidable (OwnSkip d k curr x) := by
  unfold OwnSkip
  infer_instance

/-- The same for all units that a hook accesses. -/
def OwnSkips (unitSize : Address) (d : Detector Unit FastTrackMeta) (e : Hook) : Prop :=
  e.ForUnits unitSize (OwnSkip d)

instance (unitSize : Address) (d : Detector Unit FastTrackMeta) (e : Hook) :
    Decidable (OwnSkips unitSize d e) := inferInstanceAs (Decidable (e.ForUnits ..))

section
variable {order : Causality.Model Hook Channel} {unitSize : Address} {tr : List Hook} {n : ℕ}
  {epoch : Stamps} {x : Address} {m : FastTrackMeta}

/-- Reads are remembered by the last one, and by the clock once they are shared. -/
structure FastTrackInv (order : Causality.Model Hook Channel) (opened : Progress → Bool)
    (unitSize : Address) (tr : List Hook) (epoch : Stamps) (n : ℕ) (x : Address) (m : FastTrackMeta) :
    Prop where
  writer : Remembers order tr epoch (Processed opened unitSize tr .write x) n m.writerEpoch.stamp
    (m.racy = false)
  reader : Remembers order tr epoch (Processed opened unitSize tr .read x) n m.readerEpoch.stamp
    (m.racy = false ∧ m.readShared = false)
  readers : ∀ i < n, ∀ t inst, Processed opened unitSize tr .read x i t inst →
    ∃ r < n, ∃ s, m.readerVc.map[t]? = some s ∧ epoch r = some (t, s) ∧ Covers order tr epoch i r
  entries : ∀ (t : ThreadId) (s : ℕ), m.readerVc.map[t]? = some s →
    (∃ r < n, ∃ inst, Processed opened unitSize tr .read x r t inst ∧ epoch r = some (t, s)) ∧
    ∃ inst, m.readerInstTable[t]? = some inst
  readerEntry : m.readerEpoch ≠ {} → m.readerVc.map[m.readerEpoch.tid]? = some m.readerEpoch.clock
  writerNamed : m.writerEpoch ≠ {} → ∃ inst, m.writerInst = some inst
  calm : m.racy = false → ∀ j < n, ¬ RacyAt order opened unitSize tr x j

variable {opened : Progress → Bool}

theorem FastTrackInv.blank : FastTrackInv order opened unitSize tr epoch 0 x {} where
  writer := Remembers.blank
  reader := Remembers.blank
  readers _ bound := absurd bound (Nat.not_lt_zero _)
  entries t s found := by simp at found
  readerEntry used := absurd rfl used
  writerNamed used := absurd rfl used
  calm _ _ bound := absurd bound (Nat.not_lt_zero _)

theorem FastTrackInv.restamp (inv : FastTrackInv order opened unitSize tr epoch n x m) {epoch' : Stamps}
    (same : ∀ i < n, epoch' i = epoch i) : FastTrackInv order opened unitSize tr epoch' n x m := by
  refine ⟨inv.writer.restamp same, inv.reader.restamp same, ?_, ?_, inv.readerEntry, inv.writerNamed,
    inv.calm⟩
  · intro i bound t inst access
    obtain ⟨r, below, s, found, stamp, covers⟩ := inv.readers i bound t inst access
    refine ⟨r, below, s, found, (same r below).trans stamp, ?_⟩
    rw [Covers, same i bound, same r below]
    exact covers
  · intro t s found
    obtain ⟨⟨r, below, inst, access, stamp⟩, named⟩ := inv.entries t s found
    exact ⟨⟨r, below, inst, access, (same r below).trans stamp⟩, named⟩

theorem calm_succ {P : ℕ → Prop} (calm : ∀ j < n, ¬ P j) (here : ¬ P n) : ∀ j < n + 1, ¬ P j := by
  intro j bound
  rcases Nat.lt_succ_iff_lt_or_eq.mp bound with earlier | rfl
  · exact calm j earlier
  · exact here

/-- Reads other than that of hook `n` are remembered as before. -/
theorem FastTrackInv.readers_succ (inv : FastTrackInv order opened unitSize tr epoch n x m)
    (none : ∀ t inst, ¬ Processed opened unitSize tr .read x n t inst) :
    (∀ i < n + 1, ∀ t inst, Processed opened unitSize tr .read x i t inst → ∃ r < n + 1, ∃ s,
      m.readerVc.map[t]? = some s ∧ epoch r = some (t, s) ∧ Covers order tr epoch i r) ∧
    ∀ (t : ThreadId) (s : ℕ), m.readerVc.map[t]? = some s →
      (∃ r < n + 1, ∃ inst, Processed opened unitSize tr .read x r t inst ∧ epoch r = some (t, s)) ∧
      ∃ inst, m.readerInstTable[t]? = some inst := by
  constructor
  · intro i bound t inst access
    rcases Nat.lt_succ_iff_lt_or_eq.mp bound with earlier | rfl
    · obtain ⟨r, below, rest⟩ := inv.readers i earlier t inst access
      exact ⟨r, Nat.lt_succ_of_lt below, rest⟩
    · exact absurd access (none t inst)
  · intro t s found
    obtain ⟨⟨r, below, rest⟩, named⟩ := inv.entries t s found
    exact ⟨⟨r, Nat.lt_succ_of_lt below, rest⟩, named⟩

theorem FastTrackInv.skip (inv : FastTrackInv order opened unitSize tr epoch n x m)
    (none : ∀ k t inst, ¬ Processed opened unitSize tr k x n t inst) :
    FastTrackInv order opened unitSize tr epoch (n + 1) x m := by
  obtain ⟨readers, entries⟩ := inv.readers_succ (none _)
  refine ⟨inv.writer.skip (none _), inv.reader.skip (none _), readers, entries, inv.readerEntry,
    inv.writerNamed, fun calm => calm_succ (inv.calm calm) ?_⟩
  rintro ⟨l, u, i, processed, _⟩
  exact none l u i processed

end

section Step
variable {G : Type} {order : Causality.Model Hook Channel} {opened : Progress → Bool}
  {unitSize : Address} {tr : List Hook} {n : ℕ} {epoch : Stamps} {x : Address} {m : FastTrackMeta}
  {b : DetectorBase G} {curr : ThreadId} {inst : InstId} {addr size : Address} {currVc : VectorClock}
  {k : RaceEventType}

/-- A skipped access in an own epoch takes part in no race that is not marked. -/
theorem FastTrackInv.not_racyAt_of_skip (inv : FastTrackInv order opened unitSize tr epoch n x m)
    (hooks : HookOrder order) (sync : SyncInv order tr (n + 1) b epoch)
    (here : tr[n]? = some (k.hook curr inst addr size))
    (processed : Processed opened unitSize tr k x n curr inst) (found : b.currVcMap[curr]? = some currVc)
    (stamp : epoch n = some (curr, currVc.getClock curr)) (live : curr ∉ (progressAt tr (n + 1)).joined)
    (skips : m.skips k currVc) (own : (m.lastEpoch k).tid = curr) (calm : m.racy = false) :
    ¬ RacyAt order opened unitSize tr x n := by
  obtain ⟨used, clock⟩ := (Epoch.equal_iff _ _).mp skips
  rw [own] at clock
  -- the access whose epoch is remembered
  obtain ⟨p, earlier, ⟨inst₀, before⟩, stamped⟩ : ∃ p < n,
      (∃ inst, Processed opened unitSize tr k x p curr inst) ∧
        epoch p = some (curr, currVc.getClock curr) := by
    have remembers : Remembers order tr epoch (Processed opened unitSize tr k x) n
        (m.lastEpoch k).stamp (m.racy = false ∧ m.readShared = false) := by
      cases k with
      | read => exact inv.reader
      | write => exact inv.writer.weaken And.left
    rcases remembers with ⟨blank, _⟩ | ⟨w, bound, ⟨inst₀, access⟩, stamped, _⟩
    · exact absurd ((Epoch.stamp_eq_blank _).mp blank) used
    · simp only [Epoch.stamp, own, clock] at access stamped
      exact ⟨w, bound, ⟨inst₀, access⟩, stamped⟩
  rintro ⟨l, u, inst', again, k', t, conflict, other, i, bound, inst'', access, unordered⟩
  obtain ⟨rfl, rfl, rfl⟩ := again.1.unique processed.1
  obtain ⟨d, first, acts⟩ := before.acting
  obtain ⟨f, between, actsOther⟩ := access.acting
  obtain ⟨behind, ahead⟩ := sync.unordered_of_same_epoch hooks first here acts (thread_hook ..) earlier
    stamped (clockOf_of_vc found _) live between actsOther other bound
  rcases Nat.lt_trichotomy i p with below | rfl | above
  · exact inv.calm calm p earlier ⟨l, u, inst₀, before, k', t, conflict, other, i, below, inst'', access,
      behind unordered⟩
  · exact other (access.1.unique before.1).2.1
  · exact inv.calm calm i bound ⟨k', t, inst'', access, l, u, conflict.symm, other.symm, p, above, inst₀,
      before, ahead⟩

/-- A skipped access leaves the metadata as it is. -/
theorem FastTrackInv.same (inv : FastTrackInv order opened unitSize tr epoch n x m)
    (hooks : HookOrder order) (sync : SyncInv order tr (n + 1) b epoch)
    (here : tr[n]? = some (k.hook curr inst addr size))
    (processed : Processed opened unitSize tr k x n curr inst) (found : b.currVcMap[curr]? = some currVc)
    (stamp : epoch n = some (curr, currVc.getClock curr)) (live : curr ∉ (progressAt tr (n + 1)).joined)
    (skips : m.skips k currVc) (own : (m.lastEpoch k).tid = curr) :
    FastTrackInv order opened unitSize tr epoch (n + 1) x m := by
  obtain ⟨used, clock⟩ := (Epoch.equal_iff _ _).mp skips
  rw [own] at clock
  have remembered : epoch n = some (m.lastEpoch k).stamp := by
    rw [stamp, Epoch.stamp, own, clock]
  have nonblank : (m.lastEpoch k).stamp ≠ (0, 0) := fun same =>
    used ((Epoch.stamp_eq_blank _).mp same)
  have others : ∀ {l}, l ≠ k → ∀ t inst', ¬ Processed opened unitSize tr l x n t inst' :=
    fun apart t inst' other => apart (other.1.unique processed.1).1
  have calm : m.racy = false → ∀ j < n + 1, ¬ RacyAt order opened unitSize tr x j := fun calm =>
    calm_succ (inv.calm calm)
      (inv.not_racyAt_of_skip hooks sync here processed found stamp live skips own calm)
  cases k with
  | read =>
    refine ⟨inv.writer.skip (others (by simp)), inv.reader.same nonblank remembered, ?_, ?_,
      inv.readerEntry, inv.writerNamed, calm⟩
    · intro i bound t inst' access
      rcases Nat.lt_succ_iff_lt_or_eq.mp bound with earlier | rfl
      · obtain ⟨r, below, rest⟩ := inv.readers i earlier t inst' access
        exact ⟨r, Nat.lt_succ_of_lt below, rest⟩
      · obtain ⟨_, rfl, rfl⟩ := access.1.unique processed.1
        have entry := inv.readerEntry used
        obtain ⟨⟨r, below, _, _, stamped⟩, _⟩ := inv.entries _ _ entry
        simp only [FastTrackMeta.lastEpoch] at own clock
        rw [own, clock] at entry stamped
        exact ⟨r, Nat.lt_succ_of_lt below, _, entry, stamped, Or.inl (stamp.trans stamped.symm)⟩
    · intro t s found
      obtain ⟨⟨r, below, rest⟩, named⟩ := inv.entries t s found
      exact ⟨⟨r, Nat.lt_succ_of_lt below, rest⟩, named⟩
  | write =>
    obtain ⟨readers, entries⟩ := inv.readers_succ (others (by simp))
    exact ⟨inv.writer.same nonblank remembered, inv.reader.skip (others (by simp)), readers, entries,
      inv.readerEntry, inv.writerNamed, calm⟩

/-- A read that is looked at. -/
theorem FastTrackInv.read (inv : FastTrackInv order opened unitSize tr epoch n x m)
    (hooks : HookOrder order) (sync : SyncInv order tr (n + 1) b epoch)
    (here : tr[n]? = some (RaceEventType.read.hook curr inst addr size))
    (processed : Processed opened unitSize tr .read x n curr inst)
    (found : b.currVcMap[curr]? = some currVc)
    (stamp : epoch n = some (curr, currVc.getClock curr)) (skipped : ¬ m.skips .read currVc) :
    ∃ next out, FastTrack.processRead b curr x m inst = some (next, out) ∧
      FastTrackInv order opened unitSize tr epoch (n + 1) x next := by
  obtain ⟨raced, calls, ran, marked, _⟩ := checkEpoch_spec curr currVc m.writerEpoch m.writerInst
    (fun thdId writerInst => ⟨x, thdId, writerInst, .write, curr, inst, .read⟩) inv.writerNamed
  have others : ∀ t inst', ¬ Processed opened unitSize tr .write x n t inst' := fun t inst' other =>
    nomatch (other.1.unique processed.1).1
  have fresh : m.readerEpoch.equal currVc = false := Bool.eq_false_iff.mpr skipped
  refine ⟨_, _, by simp only [FastTrack.processRead, found, ran, fresh, Option.bind_eq_bind,
    Option.bind_some, Bool.false_eq_true, if_false]; rfl, ?_⟩
  refine ⟨(inv.writer.skip others).weaken ?_, ?_, ?_, ?_, ?_, inv.writerNamed, ?_⟩
  · intro calm
    exact (Bool.or_eq_false_iff.mp calm).1
  · refine Remembers.record processed stamp ?_
    rintro ⟨calm, alone⟩ i bound t inst' access
    obtain ⟨unshared, seen⟩ := Bool.or_eq_false_iff.mp alone
    rw [Bool.not_eq_false', Epoch.happensBefore_iff] at seen
    exact inv.reader.ordered hooks sync here found ⟨(Bool.or_eq_false_iff.mp calm).1, unshared⟩ seen
      bound access
  · intro i bound t inst' access
    simp only [VectorClock.setClock, getElem?_insert_thread]
    by_cases same : curr = t
    · subst same
      refine ⟨n, Nat.lt_succ_self n, _, if_pos rfl, stamp, ?_⟩
      rcases Nat.lt_succ_iff_lt_or_eq.mp bound with earlier | rfl
      · obtain ⟨d, first, acts⟩ := access.acting
        exact Or.inr (hooks.hb_of_thread first here acts (thread_hook ..) earlier)
      · exact Or.inl rfl
    · rcases Nat.lt_succ_iff_lt_or_eq.mp bound with earlier | rfl
      · obtain ⟨r, below, s, entry, rest⟩ := inv.readers i earlier t inst' access
        exact ⟨r, Nat.lt_succ_of_lt below, s, by rw [if_neg same]; exact entry, rest⟩
      · exact absurd (access.1.unique processed.1).2.1.symm same
  · intro t s entry
    simp only [VectorClock.setClock, getElem?_insert_thread] at entry ⊢
    by_cases same : curr = t
    · subst same
      rw [if_pos rfl] at entry
      cases entry
      exact ⟨⟨n, Nat.lt_succ_self n, inst, processed, stamp⟩, inst, if_pos rfl⟩
    · rw [if_neg same] at entry
      obtain ⟨⟨r, below, rest⟩, i, named⟩ := inv.entries t s entry
      exact ⟨⟨r, Nat.lt_succ_of_lt below, rest⟩, i, by rw [if_neg same]; exact named⟩
  · intro _
    simp [VectorClock.setClock, Epoch.make]
  · intro calm
    obtain ⟨before, unraced⟩ := Bool.or_eq_false_iff.mp calm
    refine calm_succ (inv.calm before) fun racy => ?_
    obtain ⟨u, _, i, bound, inst', access, unordered⟩ := (racyAt_read_iff processed).mp racy
    have seen : m.writerEpoch.clock ≤ currVc.getClock m.writerEpoch.tid := by
      rw [← Nat.not_lt, ← marked, unraced]
      simp
    exact unordered (inv.writer.ordered hooks sync here found before seen bound access)

theorem FastTrackInv.positive (inv : FastTrackInv order opened unitSize tr epoch n x m)
    (sync : SyncInv order tr (n + 1) b epoch) (t : ThreadId) (s : ℕ)
    (entry : m.readerVc.map[t]? = some s) : 0 < s := by
  obtain ⟨⟨_, _, _, _, stamp⟩, _⟩ := inv.entries t s entry
  exact (sync.exact.stamped stamp).2.1

/-- Without a mark, the check against the readers has passed: all reads are
ordered before the write. -/
theorem FastTrackInv.checkReaders_spec (inv : FastTrackInv order opened unitSize tr epoch n x m)
    (hooks : HookOrder order) (sync : SyncInv order tr (n + 1) b epoch)
    (here : tr[n]? = some (RaceEventType.write.hook curr inst addr size))
    (found : b.currVcMap[curr]? = some currVc) (report : ThreadId → InstId → RaceReport) :
    ∃ raced shared calls, FastTrack.checkReaders curr currVc m report = some (raced, shared, calls) ∧
      (raced = false → shared = m.readShared ∧ (m.racy = false →
        ∀ i < n, ∀ t inst', Processed opened unitSize tr .read x i t inst' → order.HB tr i n)) := by
  cases sharing : m.readShared with
  | true =>
    cases seen : m.readerVc.happensBefore currVc with
    | true =>
      refine ⟨false, true, [], by simp [FastTrack.checkReaders, sharing, seen], fun _ => ⟨rfl, ?_⟩⟩
      intro _ i bound t inst' access
      rw [VectorClock.happensBefore_iff _ _ (inv.positive sync)] at seen
      obtain ⟨r, below, s, entry, stamp, covers⟩ := inv.readers i bound t inst' access
      have above := seen t
      simp only [VectorClock.getClock, entry, Option.getD_some] at above
      have known : order.Known tr (n + 1) (.thread curr) r := by
        have exact := sync.exact.exact stamp (.thread curr)
        simp only [DetectorBase.view, clockOf_of_vc found] at exact
        exact exact.mpr above
      have covered := sync.known_of_covers covers stamp known
      rw [hooks.known_access here bound.ne] at covered
      exact (hooks.hb_access_iff here).mpr covered
    | false =>
      obtain ⟨calls, ran, _⟩ := reportEntries_spec curr currVc m.readerInstTable report
        m.readerVc.map.toList
        (fun e member => (inv.entries e.1 e.2 (VectorClock.mem_toList.mp member)).2)
      exact ⟨true, false, calls, by simp [FastTrack.checkReaders, sharing, seen, ran],
        fun same => by cases same⟩
  | false =>
    have named : m.readerEpoch ≠ {} → ∃ i, m.readerInstTable[m.readerEpoch.tid]? = some i := fun used =>
      (inv.entries _ _ (inv.readerEntry used)).2
    obtain ⟨raced, calls, ran, marked, _⟩ := checkEpoch_spec curr currVc m.readerEpoch _ report named
    refine ⟨raced, false, calls, by simp [FastTrack.checkReaders, sharing, ran], fun unraced => ⟨rfl, ?_⟩⟩
    intro calm i bound t inst' access
    have seen : m.readerEpoch.clock ≤ currVc.getClock m.readerEpoch.tid := by
      rw [← Nat.not_lt, ← marked, unraced]
      simp
    exact inv.reader.ordered hooks sync here found ⟨calm, sharing⟩ seen bound access

/-- A write that is looked at. -/
theorem FastTrackInv.write (inv : FastTrackInv order opened unitSize tr epoch n x m)
    (hooks : HookOrder order) (sync : SyncInv order tr (n + 1) b epoch)
    (here : tr[n]? = some (RaceEventType.write.hook curr inst addr size))
    (processed : Processed opened unitSize tr .write x n curr inst)
    (found : b.currVcMap[curr]? = some currVc)
    (stamp : epoch n = some (curr, currVc.getClock curr)) (skipped : ¬ m.skips .write currVc) :
    ∃ next out, FastTrack.processWrite b curr x m inst = some (next, out) ∧
      FastTrackInv order opened unitSize tr epoch (n + 1) x next := by
  obtain ⟨racedW, callsW, ranW, markedW, _⟩ := checkEpoch_spec curr currVc m.writerEpoch m.writerInst
    (fun thdId writerInst => ⟨x, thdId, writerInst, .write, curr, inst, .write⟩) inv.writerNamed
  obtain ⟨racedR, shared, callsR, ranR, passed⟩ := inv.checkReaders_spec hooks sync here found
    (fun thdId readerInst => ⟨x, thdId, readerInst, .read, curr, inst, .write⟩)
  have others : ∀ t inst', ¬ Processed opened unitSize tr .read x n t inst' := fun t inst' other =>
    nomatch (other.1.unique processed.1).1
  have fresh : (!m.writerEpoch.isInitial && m.writerEpoch.equal currVc) = false := by
    have test : m.writerEpoch.equal currVc = false := Bool.eq_false_iff.mpr skipped
    rw [test, Bool.and_false]
  obtain ⟨readers, entries⟩ := inv.readers_succ others
  have split : ∀ {flag : Bool}, (m.racy || racedW || flag) = false →
      m.racy = false ∧ racedW = false ∧ flag = false := by
    intro flag calm
    simp only [Bool.or_eq_false_iff] at calm
    exact ⟨calm.1.1, calm.1.2, calm.2⟩
  have writers : m.racy = false → racedW = false → ∀ i < n, ∀ t inst',
      Processed opened unitSize tr .write x i t inst' → order.HB tr i n := by
    intro before unraced i bound t inst' access
    have seen : m.writerEpoch.clock ≤ currVc.getClock m.writerEpoch.tid := by
      rw [← Nat.not_lt, ← markedW, unraced]
      simp
    exact inv.writer.ordered hooks sync here found before seen bound access
  refine ⟨_, _, by simp only [FastTrack.processWrite, found, ranW, ranR, fresh, Option.bind_eq_bind,
    Option.bind_some, Bool.false_eq_true, if_false]; rfl, ?_⟩
  refine ⟨?_, (inv.reader.skip others).weaken ?_, readers, entries, inv.readerEntry,
    fun _ => ⟨inst, rfl⟩, ?_⟩
  · refine Remembers.record processed stamp ?_
    intro calm
    exact writers (split calm).1 (split calm).2.1
  · rintro ⟨calm, unshared⟩
    obtain ⟨before, _, unraced⟩ := split calm
    exact ⟨before, (passed unraced).1.symm.trans unshared⟩
  · intro calm
    obtain ⟨before, unracedW, unracedR⟩ := split calm
    refine calm_succ (inv.calm before) fun racy => ?_
    rcases (racyAt_write_iff processed).mp racy with ⟨u, _, i, bound, inst', access, unordered⟩ |
      ⟨u, _, i, bound, inst', access, unordered⟩
    · exact unordered (writers before unracedW i bound u inst' access)
    · exact unordered ((passed unracedR).2 before i bound u inst' access)

/-- FastTrack keeps its invariant as long as it skips own epochs only. -/
theorem fastTrack_analyses : fastTrack.Analyses syncOrder gateOpen (fun _ _ => True) unitSize tr
    (OwnSkips unitSize) (FastTrackInv syncOrder gateOpen unitSize tr) (fun _ _ _ => True)
    (fun _ _ _ => False) where
  blank _ _ := FastTrackInv.blank
  restamp same inv := inv.restamp same
  skip none inv := inv.skip none
  process {n d epoch k curr inst addr size x} here member entered sync stamp runs _ cond inv := by
    rw [show fastTrack.newMeta = {} from rfl] at inv ⊢
    have next : progressAt tr (n + 1) = progressAt tr n := by simp [progressAt_succ here]
    have live : curr ∉ (progressAt tr (n + 1)).joined := by rw [next]; exact runs.2
    obtain ⟨currVc, found⟩ := sync.present (t := curr) (by rw [next]; exact runs.1)
    rw [clockOf_of_vc found] at stamp
    have processed : Processed gateOpen unitSize tr k x n curr inst :=
      ⟨⟨addr, size, here, member⟩, entered⟩
    have opened : gate d.toDetectorBase = true := by
      rw [gate_of_counted sync.counted, next]
      exact entered
    by_cases skips : (d.metaTable[x]?.getD {}).skips k currVc
    · have own := Hook.ForUnits.unit cond member opened currVc found skips
      refine ⟨d.metaTable[x]?.getD {}, [], ?_,
        inv.same syncOrder_hooks sync here processed found stamp live skips own, by simp, by simp⟩
      have test := skips
      cases k with
      | read =>
        simp only [FastTrackMeta.skips, FastTrackMeta.lastEpoch] at test
        simp [Algorithm.process, fastTrack, FastTrack.processRead, found, test]
      | write =>
        simp only [FastTrackMeta.skips, FastTrackMeta.lastEpoch] at test
        have used : (d.metaTable[x]?.getD {}).writerEpoch.isInitial = false := by
          rw [Bool.eq_false_iff, ne_eq, Epoch.isInitial_iff]
          exact ((Epoch.equal_iff _ _).mp test).1
        simp [Algorithm.process, fastTrack, FastTrack.processWrite, found, test, used]
    · cases k with
      | read =>
        obtain ⟨m, out, ran, kept⟩ := inv.read syncOrder_hooks sync here processed found stamp skips
        exact ⟨m, out, ran, kept, by simp, by simp⟩
      | write =>
        obtain ⟨m, out, ran, kept⟩ := inv.write syncOrder_hooks sync here processed found stamp skips
        exact ⟨m, out, ran, kept, by simp, by simp⟩

end Step

/-- FastTrack runs as Djit does over every conforming trace, and marks every unit
that Djit marks, provided that it skips no access in an epoch of another thread. -/
theorem fastTrack_misses_nothing {unitSize : Address} {trackRacyInst : Bool} {filter : RegionFilter}
    {tr : List Hook} (conforms : Conforms unitSize tr) (monitored : Monitored filter tr)
    (own : Runs.Along (Detector.step fastTrack) (OwnSkips unitSize)
      (start _ unitSize trackRacyInst filter ()) tr) :
    ∃ djitLast djitOuts last outs,
      Detector.run djit (start _ unitSize trackRacyInst filter ()) tr = some (djitLast, djitOuts) ∧
      Detector.run fastTrack (start _ unitSize trackRacyInst filter ()) tr = some (last, outs) ∧
      ∀ x, (metaAt djitLast {} x).racy = true → (metaAt last {} x).racy = true := by
  obtain ⟨djitLast, djitOuts, djitRan, marked⟩ := djit_racy_iff trackRacyInst conforms monitored
  obtain ⟨last, outs, ran, _, ⟨epoch, inv⟩, _⟩ :=
    fastTrack_analyses.run (start _ unitSize trackRacyInst filter ())
      (base_tracks gate_of_counted rfl rfl rfl) conforms trivial monitored (start_fresh ..) trivial own
  refine ⟨djitLast, djitOuts, last, outs, djitRan, ran, fun x racy => ?_⟩
  obtain ⟨j, bound, race⟩ := (marked x).mp racy
  by_contra unmarked
  exact (inv.units x).calm (Bool.eq_false_iff.mpr unmarked) j bound race

theorem fastTrack_misses_nothing_fork : ∃ djitLast djitOuts last outs,
    Detector.run djit (start _ 4 false (.addRegion {} 8 4) ()) forkTrace = some (djitLast, djitOuts) ∧
    Detector.run fastTrack (start _ 4 false (.addRegion {} 8 4) ()) forkTrace = some (last, outs) ∧
    ∀ x, (metaAt djitLast {} x).racy = true → (metaAt last {} x).racy = true :=
  fastTrack_misses_nothing (by decide) (by decide) (by decide)

/-- Thread 1 writes and hands its epoch to thread 2 with one mutex and to thread 3
with another; both then write. -/
def handoverTrace : List Hook :=
  [.threadStart 1 invalidThdId, .threadStart 2 1, .threadStart 3 1,
    .afterPthreadMutexLock 1 16, .afterPthreadMutexLock 1 24, .beforeMemWrite 1 7 8 4,
    .beforePthreadMutexUnlock 1 16, .beforePthreadMutexUnlock 1 24,
    .afterPthreadMutexLock 2 16, .beforeMemWrite 2 8 8 4,
    .afterPthreadMutexLock 3 24, .beforeMemWrite 3 9 8 4]

/-- The write of thread 2 is skipped in the epoch of thread 1, and with it the race
with thread 3. -/
theorem fastTrack_misses_handover : Conforms 4 handoverTrace ∧
    Monitored (.addRegion {} 8 4) handoverTrace ∧
    (Detector.run djit (start _ 4 false (.addRegion {} 8 4) ()) handoverTrace).map
      (fun result => (metaAt result.1 {} 8).racy) = some true ∧
    (Detector.run fastTrack (start _ 4 false (.addRegion {} 8 4) ()) handoverTrace).map
      (fun result => (metaAt result.1 {} 8).racy) = some false := by
  decide

end Maple.Pintool
