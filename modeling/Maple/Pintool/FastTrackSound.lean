import Maple.Pintool.FastTrack
import Maple.Race.Genuine

/-! Soundness of FastTrack. Every epoch, clock entry and instruction that it keeps of
a unit belongs to one access, whatever accesses are skipped or left out. -/
namespace Maple.Pintool
open Race

/-- Accesses that happens-before does not order. -/
def Unordered (tr : List Hook) (i : ℕ) (_ : ThreadId) (n : ℕ) (_ : ThreadId) : Prop :=
  ¬ syncOrder.HB tr i n

/-- An instruction and a stamp of one access. -/
def Entry (unitSize : Address) (tr : List Hook) (epoch : Stamps) (n : ℕ) (k : RaceEventType)
    (x : Address) (t : ThreadId) (s : ℕ) (stored : Option InstId) : Prop :=
  ∃ inst i, stored = some inst ∧ Made unitSize tr epoch n k x t s inst i

structure FastTrackReal (unitSize : Address) (tr : List Hook) (epoch : Stamps) (n : ℕ) (x : Address)
    (m : FastTrackMeta) : Prop where
  writer : m.writerEpoch ≠ {} →
    Entry unitSize tr epoch n .write x m.writerEpoch.tid m.writerEpoch.clock m.writerInst
  reader : m.readerEpoch ≠ {} → Entry unitSize tr epoch n .read x m.readerEpoch.tid m.readerEpoch.clock
    m.readerInstTable[m.readerEpoch.tid]?
  readers : ∀ (t : ThreadId) (s : ℕ), m.readerVc.map[t]? = some s →
    Entry unitSize tr epoch n .read x t s m.readerInstTable[t]?

/-- The outcome of a check: genuine reports, and one of them if the unit is marked. -/
structure SoundCheck (unitSize : Address) (tr : List Hook) (n : ℕ) (x : Address) (raced : Bool)
    (calls : List DbCall) : Prop where
  genuine : ∀ call ∈ calls, ∃ r, call = .createRace r ∧ Genuine unitSize tr (Unordered tr) n r
  marked : raced = true → ∃ r, .createRace r ∈ calls ∧ r.addr = x

section
variable {unitSize : Address} {tr : List Hook} {epoch epoch' : Stamps} {n s : ℕ} {x : Address}
  {m : FastTrackMeta} {k l : RaceEventType} {t : ThreadId} {stored : Option InstId}

theorem Entry.later (entry : Entry unitSize tr epoch n k x t s stored) :
    Entry unitSize tr epoch (n + 1) k x t s stored := by
  obtain ⟨inst, i, named, made⟩ := entry
  exact ⟨inst, i, named, made.later⟩

theorem Entry.restamp (entry : Entry unitSize tr epoch n k x t s stored)
    (same : ∀ i < n, epoch' i = epoch i) : Entry unitSize tr epoch' n k x t s stored := by
  obtain ⟨inst, i, named, made⟩ := entry
  exact ⟨inst, i, named, made.restamp same⟩

theorem FastTrackReal.blank : FastTrackReal unitSize tr epoch 0 x {} where
  writer used := absurd rfl used
  reader used := absurd rfl used
  readers t s found := by simp at found

theorem FastTrackReal.restamp (real : FastTrackReal unitSize tr epoch n x m)
    (same : ∀ i < n, epoch' i = epoch i) : FastTrackReal unitSize tr epoch' n x m where
  writer used := (real.writer used).restamp same
  reader used := (real.reader used).restamp same
  readers t s found := (real.readers t s found).restamp same

theorem FastTrackReal.later (real : FastTrackReal unitSize tr epoch n x m) :
    FastTrackReal unitSize tr epoch (n + 1) x m where
  writer used := (real.writer used).later
  reader used := (real.reader used).later
  readers t s found := (real.readers t s found).later

variable {G : Type} {b : DetectorBase G} {curr : ThreadId} {inst : InstId} {currVc : VectorClock}

/-- An unseen entry is that of an access to be reported. -/
theorem Entry.genuine (entry : Entry unitSize tr epoch n k x t s stored)
    (looks : Looks syncOrder unitSize tr epoch n x b l curr inst currVc) (conflict : Conflict k l)
    (unseen : currVc.getClock t < s) {other : InstId} (named : stored = some other)
    (apart : t ≠ curr) : Genuine unitSize tr (Unordered tr) n ⟨x, t, other, k, curr, inst, l⟩ := by
  obtain ⟨inst', i, named', made⟩ := entry
  cases named.symm.trans named'
  obtain ⟨addr, size, here, member⟩ := looks.hook
  exact made.genuine here member apart.symm conflict
    (made.unordered syncOrder_hooks looks.sync here looks.found unseen)

/-- A thread has seen its own accesses. -/
theorem Entry.apart (entry : Entry unitSize tr epoch n k x t s stored)
    (looks : Looks syncOrder unitSize tr epoch n x b l curr inst currVc) (unseen : currVc.getClock t < s) :
    curr ≠ t := by
  rintro rfl
  obtain ⟨inst', i, -, made⟩ := entry
  exact absurd (made.later.le_own looks.sync looks.found) (Nat.not_le.mpr unseen)

theorem checkEpoch_sound {e : Epoch}
    (entry : e ≠ {} → Entry unitSize tr epoch n k x e.tid e.clock stored)
    (looks : Looks syncOrder unitSize tr epoch n x b l curr inst currVc) (conflict : Conflict k l) :
    ∃ raced calls, checkEpoch curr currVc e stored (fun t i => ⟨x, t, i, k, curr, inst, l⟩) =
      some (raced, calls) ∧ SoundCheck unitSize tr n x raced calls := by
  by_cases seen : e.happensBefore currVc = true
  · exact ⟨false, [], by simp [checkEpoch, seen], by simp, fun raced => nomatch raced⟩
  · have above := seen
    rw [Epoch.happensBefore_iff, Nat.not_le] at above
    have used : e ≠ {} := by
      rintro rfl
      exact Nat.not_lt_zero _ above
    have apart := (entry used).apart looks above
    obtain ⟨inst', i, named, made⟩ := entry used
    refine ⟨true, [.createRace ⟨x, e.tid, inst', k, curr, inst, l⟩], ?_, ?_, fun _ => ?_⟩
    · simp [checkEpoch, seen, apart, above, named]
    · intro call member
      exact ⟨_, List.mem_singleton.mp member,
        (entry used).genuine looks conflict above named apart.symm⟩
    · exact ⟨_, List.mem_singleton_self _, rfl⟩

theorem checkReaders_sound (real : FastTrackReal unitSize tr epoch n x m)
    (looks : Looks syncOrder unitSize tr epoch n x b .write curr inst currVc) :
    ∃ raced shared calls, FastTrack.checkReaders curr currVc m
        (fun t i => ⟨x, t, i, .read, curr, inst, .write⟩) = some (raced, shared, calls) ∧
      SoundCheck unitSize tr n x raced calls := by
  cases sharing : m.readShared with
  | false =>
    obtain ⟨raced, calls, ran, sound⟩ := checkEpoch_sound real.reader looks (Or.inr rfl)
    exact ⟨raced, false, calls, by simp [FastTrack.checkReaders, sharing, ran], sound⟩
  | true =>
    have named : ∀ (t : ThreadId) (s : ℕ), m.readerVc.map[t]? = some s →
        ∃ inst, m.readerInstTable[t]? = some inst := by
      intro t s found
      obtain ⟨inst', _, named, _⟩ := real.readers t s found
      exact ⟨inst', named⟩
    have positive : ∀ (t : ThreadId) (s : ℕ), m.readerVc.map[t]? = some s → 0 < s := by
      intro t s found
      obtain ⟨_, i, _, made⟩ := real.readers t s found
      exact (looks.sync.exact.stamped made.2.2).2.1
    have stored : ∀ t, Unseen curr currVc m.readerVc t →
        m.readerVc.map[t]? = some (m.readerVc.getClock t) := by
      intro t unseen
      cases found : m.readerVc.map[t]? with
      | none =>
        have above := unseen.2
        simp [VectorClock.getClock, found] at above
      | some s => simp [VectorClock.getClock, found]
    have own : m.readerVc.getClock curr ≤ currVc.getClock curr := by
      cases found : m.readerVc.map[curr]? with
      | none => simp [VectorClock.getClock, found]
      | some s =>
        obtain ⟨_, i, _, made⟩ := real.readers curr s found
        simpa [VectorClock.getClock, found] using made.later.le_own looks.sync looks.found
    obtain ⟨raced, calls, ran, marked, reported⟩ := checkAccesses_spec
      (fun t i => ⟨x, t, i, .read, curr, inst, .write⟩) named positive own
    have sound : SoundCheck unitSize tr n x raced calls := by
      constructor
      · intro call member
        obtain ⟨t, i, unseen, found, rfl⟩ := (reported call).mp member
        exact ⟨_, rfl, (real.readers t _ (stored t unseen)).genuine looks (Or.inr rfl) unseen.2 found unseen.1⟩
      · intro raced
        obtain ⟨t, unseen⟩ := marked.mp raced
        obtain ⟨i, found⟩ := named t _ (stored t unseen)
        exact ⟨_, (reported _).mpr ⟨t, i, unseen, found, rfl⟩, rfl⟩
    unfold checkAccesses at ran
    split at ran
    · next seen =>
      cases ran
      exact ⟨false, true, [], by simp [FastTrack.checkReaders, sharing, seen], sound⟩
    · next unseen =>
      simp only [Option.bind_eq_bind, Option.bind_eq_some_iff] at ran
      obtain ⟨_, looped, emitted⟩ := ran
      cases Option.some.inj emitted
      exact ⟨true, false, calls, by simp [FastTrack.checkReaders, sharing, unseen, looped], sound⟩

/-- Processing an access keeps the records real; the unit is marked only with a report. -/
structure Step (unitSize : Address) (tr : List Hook) (epoch : Stamps) (n : ℕ) (x : Address)
    (m next : FastTrackMeta) (out : List DbCall) : Prop where
  real : FastTrackReal unitSize tr epoch (n + 1) x next
  genuine : ∀ call ∈ out, ∃ r, call = .createRace r ∧ Genuine unitSize tr (Unordered tr) n r
  marked : m.racy = false → next.racy = true → ∃ r, .createRace r ∈ out ∧ r.addr = x

theorem Step.skip (real : FastTrackReal unitSize tr epoch n x m) :
    Step unitSize tr epoch n x m m [] where
  real := real.later
  genuine _ made := nomatch made
  marked calm racy := nomatch calm.symm.trans racy

theorem FastTrackReal.read (real : FastTrackReal unitSize tr epoch n x m)
    (looks : Looks syncOrder unitSize tr epoch n x b .read curr inst currVc) :
    ∃ next out, FastTrack.processRead b curr x m inst = some (next, out) ∧
      Step unitSize tr epoch n x m next out := by
  by_cases skips : m.readerEpoch.equal currVc = true
  · exact ⟨m, [], by simp [FastTrack.processRead, looks.found, skips], .skip real⟩
  · obtain ⟨raced, calls, ran, sound⟩ := checkEpoch_sound real.writer looks (Or.inl rfl)
    refine ⟨_, calls, by simp only [FastTrack.processRead, looks.found, ran, skips, Option.bind_eq_bind,
      Option.bind_some, Bool.false_eq_true, if_false]; rfl, ?_, sound.genuine, fun calm racy => ?_⟩
    · have fresh := looks.made
      refine ⟨fun used => (real.writer used).later, fun _ => ⟨inst, n, ?_, fresh⟩, fun t s found => ?_⟩
      · simp [Epoch.make]
      · simp only [VectorClock.setClock, getElem?_insert_thread] at found ⊢
        by_cases same : curr = t
        · subst same
          rw [if_pos rfl] at found
          cases found
          exact ⟨inst, n, if_pos rfl, fresh⟩
        · rw [if_neg same] at found
          obtain ⟨inst', i, named, made⟩ := real.readers t s found
          exact ⟨inst', i, by rw [if_neg same]; exact named, made.later⟩
    · apply sound.marked
      simpa [calm] using racy

theorem FastTrackReal.write (real : FastTrackReal unitSize tr epoch n x m)
    (looks : Looks syncOrder unitSize tr epoch n x b .write curr inst currVc) :
    ∃ next out, FastTrack.processWrite b curr x m inst = some (next, out) ∧
      Step unitSize tr epoch n x m next out := by
  by_cases skips : (!m.writerEpoch.isInitial && m.writerEpoch.equal currVc) = true
  · exact ⟨m, [], by simp only [FastTrack.processWrite, looks.found, skips, Option.bind_eq_bind,
      Option.bind_some, if_true]; rfl, .skip real⟩
  · obtain ⟨racedW, callsW, ranW, soundW⟩ := checkEpoch_sound real.writer looks (Or.inl rfl)
    obtain ⟨racedR, shared, callsR, ranR, soundR⟩ := checkReaders_sound real looks
    refine ⟨_, callsW ++ callsR, by simp only [FastTrack.processWrite, looks.found, ranW, ranR, skips,
      Option.bind_eq_bind, Option.bind_some, Bool.false_eq_true, if_false]; rfl, ?_, ?_, ?_⟩
    · exact ⟨fun _ => ⟨inst, n, rfl, looks.made⟩, fun used => (real.reader used).later,
        fun t s found => (real.readers t s found).later⟩
    · intro call made
      exact (List.mem_append.mp made).elim (soundW.genuine call) (soundR.genuine call)
    · intro calm racy
      have either : racedW = true ∨ racedR = true := by simpa [calm] using racy
      rcases either with raced | raced
      · obtain ⟨r, made, addr⟩ := soundW.marked raced
        exact ⟨r, List.mem_append_left _ made, addr⟩
      · obtain ⟨r, made, addr⟩ := soundR.marked raced
        exact ⟨r, List.mem_append_right _ made, addr⟩

end

section Run
variable {unitSize : Address} {tr : List Hook} {n : ℕ}

/-- What a report by FastTrack at position `n` says. -/
def GenuineCall (unitSize : Address) (tr : List Hook) (n : ℕ) (_ : Address) (call : DbCall) : Prop :=
  ∃ r, call = .createRace r ∧ Genuine unitSize tr (Unordered tr) n r

theorem fastTrack_step {d : Detector Unit FastTrackMeta} {epoch : Stamps} {k : RaceEventType}
    {curr : ThreadId} {inst : InstId} {addr size x : Address} (here : tr[n]? = some (k.hook curr inst addr size))
    (member : x ∈ unitsOf unitSize addr size) (sync : SyncInv syncOrder tr (n + 1) d.toDetectorBase epoch)
    (stamp : epoch n = some (curr, d.clockOf (.thread curr) curr)) (runs : (progressAt tr n).Runs curr)
    (real : FastTrackReal unitSize tr epoch n x (d.metaTable[x]?.getD {})) :
    ∃ m out, fastTrack.process k d.toDetectorBase curr x (d.metaTable[x]?.getD {}) inst = some (m, out) ∧
      Step unitSize tr epoch n x (d.metaTable[x]?.getD {}) m out := by
  obtain ⟨currVc, looks⟩ := exists_looks here member sync stamp runs
  cases k with
  | read => exact real.read looks
  | write => exact real.write looks

theorem fastTrack_sound : fastTrack.Analyses syncOrder gateOpen (fun _ _ => True) unitSize tr
    (fun _ _ => True) (FastTrackReal unitSize tr) (GenuineCall unitSize tr) (fun _ _ _ => False) where
  blank _ _ := FastTrackReal.blank
  restamp same real := real.restamp same
  skip _ real := real.later
  process {n d epoch k curr inst addr size x} here member _ sync stamp runs _ _ real := by
    obtain ⟨m, out, ran, step⟩ := fastTrack_step here member sync stamp runs real
    exact ⟨m, out, ran, step.real, step.genuine, fun _ due => due.elim⟩

theorem fastTrack_blind : Blind (FastTrackReal unitSize tr) (fun _ _ _ => False) where
  skip real := real.later
  due _ _ _ := id

/-- A hook marks a unit only with a report about it. -/
theorem fastTrack_marks {trackRacyInst : Bool} {filter : RegionFilter} (conforms : Conforms unitSize tr)
    {e : Hook} (here : tr[n]? = some e) {d next : Detector Unit FastTrackMeta} {before : List (List DbCall)}
    {out : List DbCall}
    (ran : Detector.run fastTrack (start _ unitSize trackRacyInst filter ()) (tr.take n) = some (d, before))
    (stepped : d.step fastTrack e = some (next, out)) {x : Address}
    (calm : (metaAt d {} x).racy = false) (racy : (metaAt next {} x).racy = true) :
    ∃ r, .createRace r ∈ out ∧ r.addr = x := by
  have bound := (List.getElem?_eq_some_iff.mp here).1
  obtain ⟨epoch, inv⟩ := fastTrack_sound.reached (start _ unitSize trackRacyInst filter ())
    (base_tracks gate_of_counted rfl rfl rfl) conforms trivial (Or.inr fastTrack_blind) (start_fresh ..) trivial
    (fun _ _ => trivial) bound.le ran
  have unchanged : next.metaTable[x]? ≠ d.metaTable[x]? := by
    intro same
    simp only [metaAt, same] at racy
    exact nomatch calm.symm.trans racy
  have access : ∀ (k : RaceEventType) curr inst addr size, e = k.hook curr inst addr size →
      (progressAt tr n).Runs curr → ∃ r, .createRace r ∈ out ∧ r.addr = x := by
    rintro k curr inst addr size rfl runs
    rcases Detector.step_unit stepped x with same | ⟨member, m, calls, processed, entry, among⟩
    · exact absurd same unchanged
    · have sync := inv.sync.access here runs (syncOrder_hooks.accessAcquires k curr inst addr size)
        (syncOrder_hooks.accessReleases k curr inst addr size) (by simp)
      have real := (inv.units x).restamp fun i below =>
        Function.update_of_ne (Nat.ne_of_lt below) (some (curr, d.clockOf (.thread curr) curr)) epoch
      rw [inv.settings.unitSize] at member
      obtain ⟨m', calls', ran', step⟩ :=
        fastTrack_step here member sync (Function.update_self ..) runs real
      cases processed.symm.trans ran'
      simp only [metaAt, entry, Option.getD_some] at racy
      obtain ⟨r, made, addr⟩ := step.marked calm racy
      exact ⟨r, among _ made, addr⟩
  have silent : ∀ {b}, d.silent b = some (next, out) → ∃ r, .createRace r ∈ out ∧ r.addr = x :=
    fun ran => absurd (by rw [Detector.silent_metaTable ran]) unchanged
  have admitted := conforms.admitted n e here
  cases e with
  | beforeMemRead curr inst addr size => exact access .read curr inst addr size rfl admitted
  | beforeMemWrite curr inst addr size => exact access .write curr inst addr size rfl admitted
  | threadStart | afterPthreadJoin | afterPthreadMutexLock | beforePthreadMutexUnlock =>
    exact silent stepped
  | _ => exact admitted.elim

/-- FastTrack runs over every conforming trace. Its reports name an earlier unordered
access, and it marks a unit only when it makes such a report. -/
theorem fastTrack_reports_genuine {trackRacyInst : Bool} {filter : RegionFilter}
    (conforms : Conforms unitSize tr) :
    ∃ last outs, Detector.run fastTrack (start _ unitSize trackRacyInst filter ()) tr = some (last, outs) ∧
      outs.length = tr.length ∧ ∀ n out, outs[n]? = some out →
        (∀ r, .createRace r ∈ out → Genuine unitSize tr (Unordered tr) n r) ∧
        ∀ d next before after,
          Detector.run fastTrack (start _ unitSize trackRacyInst filter ()) (tr.take n) = some (d, before) →
          Detector.run fastTrack (start _ unitSize trackRacyInst filter ()) (tr.take (n + 1)) =
            some (next, after) →
          ∀ x, (metaAt d {} x).racy = false → (metaAt next {} x).racy = true →
            ∃ r, .createRace r ∈ out ∧ r.addr = x := by
  obtain ⟨last, outs, ran, length, -, emits⟩ := fastTrack_sound.run_of
    (start _ unitSize trackRacyInst filter ()) (base_tracks gate_of_counted rfl rfl rfl) conforms trivial
    (Or.inr fastTrack_blind) (start_fresh ..) trivial (Runs.along_of_forall (fun _ _ => trivial) _ _)
  refine ⟨last, outs, ran, length, fun n out found => ⟨fun r made => ?_, ?_⟩⟩
  · obtain ⟨k, x, t, inst, -, r', same, genuine⟩ := (emits n out found).reported _ made
    cases same
    exact genuine
  · intro d next before after reached through x calm racy
    have bound : n < tr.length := length ▸ (List.getElem?_eq_some_iff.mp found).1
    have here := List.getElem?_eq_getElem bound
    obtain ⟨d', before', next', out', reached', stepped, through', found'⟩ := Runs.run_at here ran
    cases reached.symm.trans reached'
    cases through.symm.trans through'
    cases found.symm.trans found'
    exact fastTrack_marks conforms here reached stepped calm racy

theorem fastTrack_reports_genuine_fork : ∃ last outs,
    Detector.run fastTrack (start _ 4 false (.addRegion {} 8 4) ()) forkTrace = some (last, outs) ∧
      outs.length = forkTrace.length ∧ ∀ n out, outs[n]? = some out →
        (∀ r, .createRace r ∈ out → Genuine 4 forkTrace (Unordered forkTrace) n r) ∧
        ∀ d next before after,
          Detector.run fastTrack (start _ 4 false (.addRegion {} 8 4) ()) (forkTrace.take n) =
            some (d, before) →
          Detector.run fastTrack (start _ 4 false (.addRegion {} 8 4) ()) (forkTrace.take (n + 1)) =
            some (next, after) →
          ∀ x, (metaAt d {} x).racy = false → (metaAt next {} x).racy = true →
            ∃ r, .createRace r ∈ out ∧ r.addr = x :=
  fastTrack_reports_genuine (by decide)

end Run
end Maple.Pintool
