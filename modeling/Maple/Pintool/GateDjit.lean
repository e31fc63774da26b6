import Maple.Pintool.GateClocks

/-! Djit with and without the gate over any trace of hooks. The metadata differ
only in entries of accesses behind the closed gate, which every later access of
another thread has seen. -/
namespace Maple.Pintool
open Race

/-- `pintool::Djit` with the gate taken out. -/
def ungatedDjit : Algorithm Unit DjitMeta := { djit with gate := fun _ => true }

/-- Position `i` is an access of thread `t` that the gate keeps out. -/
def KeptOut (tr : List Hook) (i : ℕ) (t : ThreadId) : Prop :=
  (∃ (k : RaceEventType) (inst : InstId) (addr size : Address), tr[i]? = some (k.hook t inst addr size)) ∧
    gateOpen (progressAt tr i) = false

/-- A shadow behind the gate and the one without it differ in entries of accesses
that were kept out. -/
structure Trails (tr : List Hook) (epoch : Stamps) (vc : VectorClock) (table : OrdMap ThreadId InstId)
    (vc' : VectorClock) (table' : OrdMap ThreadId InstId) : Prop where
  gated : ∀ {t : ThreadId} {s}, vc.map[t]? = some s →
    (∃ i, epoch i = some (t, s)) ∧ ∃ inst, table[t]? = some inst
  ungated : ∀ {t : ThreadId} {s}, vc'.map[t]? = some s →
    (∃ i, epoch i = some (t, s)) ∧ ∃ inst, table'[t]? = some inst
  agree : ∀ t : ThreadId, vc.map[t]? = vc'.map[t]? ∧ table[t]? = table'[t]? ∨
    ∃ i s, epoch i = some (t, s) ∧ KeptOut tr i t ∧ vc'.map[t]? = some s ∧ vc.getClock t ≤ s

section Trails
variable {G : Type} {tr : List Hook} {epoch epoch' : Stamps} {n i : ℕ} {vc vc' : VectorClock}
  {table table' : OrdMap ThreadId InstId} {b : DetectorBase G} {curr t : ThreadId} {s : ℕ}
  {k : RaceEventType} {inst : InstId} {addr size : Address} {currVc : VectorClock}

theorem Trails.blank : Trails tr epoch {} ∅ {} ∅ where
  gated found := by simp at found
  ungated found := by simp at found
  agree _ := Or.inl ⟨rfl, rfl⟩

theorem Trails.restamp (trails : Trails tr epoch vc table vc' table')
    (same : ∀ {i e}, epoch i = some e → epoch' i = some e) : Trails tr epoch' vc table vc' table' where
  gated found := by
    obtain ⟨⟨i, stamp⟩, named⟩ := trails.gated found
    exact ⟨⟨i, same stamp⟩, named⟩
  ungated found := by
    obtain ⟨⟨i, stamp⟩, named⟩ := trails.ungated found
    exact ⟨⟨i, same stamp⟩, named⟩
  agree t := (trails.agree t).imp_right fun ⟨i, s, stamp, rest⟩ => ⟨i, s, same stamp, rest⟩

/-- A stamp that is ordered with the access at hand has been seen by it. -/
theorem ClockInv.seen_of_ordered (inv : ClockInv tr n b epoch)
    (here : tr[n]? = some (k.hook curr inst addr size)) (stamp : epoch i = some (t, s))
    (ordered : forkJoinOrder.HB tr i n ∨ forkJoinOrder.HB tr n i) : s ≤ b.clockOf (.thread curr) t := by
  rcases ordered with ordered | backwards
  · exact inv.seen stamp ((forkJoinOrder_hooks.hb_access_iff here).mp ordered)
  · exact absurd (Causality.hb_lt backwards) (Nat.lt_asymm (inv.past stamp).1)

theorem Trails.agree_of_unseen (trails : Trails tr epoch vc table vc' table') (tree : ThreadTree tr)
    (inv : ClockInv tr n b epoch) (here : tr[n]? = some (k.hook curr inst addr size))
    (found : b.currVcMap[curr]? = some currVc)
    (unseen : Unseen curr currVc vc t ∨ Unseen curr currVc vc' t) :
    vc.map[t]? = vc'.map[t]? ∧ table[t]? = table'[t]? := by
  refine (trails.agree t).resolve_right ?_
  rintro ⟨i, s, stamp, ⟨⟨k', inst', addr', size', there⟩, closed⟩, entry, below⟩
  have other : t ≠ curr := unseen.elim And.left And.left
  have covered := inv.seen_of_ordered here stamp
    (tree.ordered_of_closed there closed here (thread_hook ..) (Ne.symm other))
  rw [clockOf_of_vc found] at covered
  have clock : vc'.getClock t = s := by simp [VectorClock.getClock, entry]
  rcases unseen with ⟨_, above⟩ | ⟨_, above⟩
  · exact absurd above (Nat.not_lt.mpr (below.trans covered))
  · exact absurd above (Nat.not_lt.mpr (clock.le.trans covered))

theorem ClockInv.own (inv : ClockInv tr n b epoch) (stamp : epoch i = some (t, s)) :
    s ≤ b.clockOf (.thread t) t := by
  obtain ⟨below, _, e, there, acting⟩ := inv.past stamp
  exact inv.seen stamp (Causality.known_mono (known_own there acting) (Nat.succ_le_of_lt below))

/-- Entries of stamped accesses meet what the check expects of them. -/
theorem ClockInv.check (inv : ClockInv tr n b epoch) (found : b.currVcMap[curr]? = some currVc)
    (stamped : ∀ {t : ThreadId} {s}, vc.map[t]? = some s →
      (∃ i, epoch i = some (t, s)) ∧ ∃ inst, table[t]? = some inst)
    (report : ThreadId → InstId → RaceReport) :
    ∃ raced calls, checkAccesses curr currVc vc table report = some (raced, calls) ∧
      (raced = true ↔ ∃ t, Unseen curr currVc vc t) ∧
      ∀ call, call ∈ calls ↔ ∃ t inst, Unseen curr currVc vc t ∧ table[t]? = some inst ∧
        call = .createRace (report t inst) := by
  refine checkAccesses_spec report (fun t s entry => (stamped entry).2) (fun t s entry => ?_) ?_
  · obtain ⟨⟨i, stamp⟩, _⟩ := stamped entry
    exact (inv.past stamp).2.1
  · cases entry : vc.map[curr]? with
    | none => simp [VectorClock.getClock, entry]
    | some s =>
      obtain ⟨⟨i, stamp⟩, _⟩ := stamped entry
      have bound := inv.own stamp
      rw [clockOf_of_vc found] at bound
      simpa [VectorClock.getClock, entry] using bound

/-- An access that passes the gate meets the same races on both sides. -/
theorem Trails.check (trails : Trails tr epoch vc table vc' table') (tree : ThreadTree tr)
    (inv : ClockInv tr n b epoch) (here : tr[n]? = some (k.hook curr inst addr size))
    (found : b.currVcMap[curr]? = some currVc) (report : ThreadId → InstId → RaceReport) :
    ∃ raced calls calls', checkAccesses curr currVc vc table report = some (raced, calls) ∧
      checkAccesses curr currVc vc' table' report = some (raced, calls') ∧
      ∀ call, call ∈ calls ↔ call ∈ calls' := by
  obtain ⟨raced, calls, ran, marked, made⟩ := inv.check found trails.gated report
  obtain ⟨raced', calls', ran', marked', made'⟩ := inv.check found trails.ungated report
  have agree := fun t => trails.agree_of_unseen (t := t) tree inv here found
  have unseen_iff : ∀ t, Unseen curr currVc vc t ↔ Unseen curr currVc vc' t := by
    intro t
    constructor <;> intro unseen
    · have same := (agree t (Or.inl unseen)).1
      simpa only [Unseen, VectorClock.getClock, same] using unseen
    · have same := (agree t (Or.inr unseen)).1
      simpa only [Unseen, VectorClock.getClock, same] using unseen
  have same : raced' = raced := by
    rw [Bool.eq_iff_iff, marked, marked']
    exact exists_congr fun t => (unseen_iff t).symm
  refine ⟨raced, calls, calls', ran, same ▸ ran', fun call => ?_⟩
  rw [made, made']
  refine exists_congr fun t => exists_congr fun i => ?_
  rw [← unseen_iff t]
  exact and_congr_right fun unseen => by rw [(agree t (Or.inl unseen)).2]

/-- An access that the gate keeps out would meet no race. -/
theorem Trails.check_keptOut (trails : Trails tr epoch vc table vc' table') (tree : ThreadTree tr)
    (inv : ClockInv tr n b epoch) (here : tr[n]? = some (k.hook curr inst addr size))
    (closed : gateOpen (progressAt tr n) = false) (found : b.currVcMap[curr]? = some currVc)
    (report : ThreadId → InstId → RaceReport) :
    checkAccesses curr currVc vc' table' report = some (false, []) := by
  have calm : ∀ t, ¬ Unseen curr currVc vc' t := by
    rintro t ⟨other, above⟩
    cases entry : vc'.map[t]? with
    | none => simp [VectorClock.getClock, entry] at above
    | some s =>
      obtain ⟨⟨i, stamp⟩, _⟩ := trails.ungated entry
      obtain ⟨_, _, e, there, acting⟩ := inv.past stamp
      have covered := inv.seen_of_ordered here stamp
        (tree.ordered_of_closed here closed there acting other).symm
      rw [clockOf_of_vc found] at covered
      simp only [VectorClock.getClock, entry, Option.getD_some] at above
      exact absurd above (Nat.not_lt.mpr covered)
  obtain ⟨raced, calls, ran, marked, made⟩ := inv.check found trails.ungated report
  have unmarked : raced = false := Bool.eq_false_iff.mpr fun raced => (marked.mp raced).elim calm
  have silent : calls = [] := List.eq_nil_iff_forall_not_mem.mpr fun call member => by
    obtain ⟨t, _, unseen, _⟩ := (made call).mp member
    exact calm t unseen
  rw [ran, unmarked, silent]

theorem stamped_record (stamped : ∀ {t : ThreadId} {s}, vc.map[t]? = some s →
      (∃ i, epoch i = some (t, s)) ∧ ∃ inst, table[t]? = some inst)
    (stamp : epoch n = some (curr, s)) {t : ThreadId} {s' : ℕ}
    (entry : (vc.setClock curr s).map[t]? = some s') :
    (∃ i, epoch i = some (t, s')) ∧ ∃ inst', (table.insert curr inst)[t]? = some inst' := by
  simp only [VectorClock.setClock, getElem?_insert_thread] at entry ⊢
  by_cases same : curr = t
  · subst same
    rw [if_pos rfl] at entry
    cases entry
    exact ⟨⟨n, stamp⟩, inst, if_pos rfl⟩
  · rw [if_neg same] at entry
    obtain ⟨stamped, inst', named⟩ := stamped entry
    exact ⟨stamped, inst', by rw [if_neg same]; exact named⟩

/-- Both sides record an access. -/
theorem Trails.record (trails : Trails tr epoch vc table vc' table')
    (stamp : epoch n = some (curr, s)) : Trails tr epoch (vc.setClock curr s) (table.insert curr inst)
      (vc'.setClock curr s) (table'.insert curr inst) where
  gated := stamped_record trails.gated stamp
  ungated := stamped_record trails.ungated stamp
  agree t := by
    simp only [VectorClock.setClock, VectorClock.getClock, getElem?_insert_thread]
    by_cases same : curr = t
    · exact Or.inl (by simp [same])
    · simpa only [if_neg same, VectorClock.getClock] using trails.agree t

/-- Only the side without the gate records an access. -/
theorem Trails.record_keptOut (trails : Trails tr epoch vc table vc' table')
    (inv : ClockInv tr n b epoch) (keptOut : KeptOut tr n curr) {epoch' : Stamps}
    (kept : ∀ {i e}, epoch i = some e → epoch' i = some e)
    (stamp : epoch' n = some (curr, b.clockOf (.thread curr) curr)) :
    Trails tr epoch' vc table (vc'.setClock curr (b.clockOf (.thread curr) curr))
      (table'.insert curr inst) where
  gated := (trails.restamp kept).gated
  ungated := stamped_record (trails.restamp kept).ungated stamp
  agree t := by
    simp only [VectorClock.setClock, getElem?_insert_thread]
    by_cases same : curr = t
    · subst same
      refine Or.inr ⟨n, _, stamp, keptOut, if_pos rfl, ?_⟩
      cases entry : vc.map[curr]? with
      | none => simp [VectorClock.getClock, entry]
      | some s =>
        obtain ⟨⟨i, stamp⟩, _⟩ := trails.gated entry
        simpa [VectorClock.getClock, entry] using inv.own stamp
    · simpa only [if_neg same] using (trails.restamp kept).agree t

end Trails

/-- The same races are reported. -/
def SameRaces (out out' : List DbCall) : Prop :=
  ∀ race, DbCall.createRace race ∈ out ↔ DbCall.createRace race ∈ out'

structure MetaTrails (tr : List Hook) (epoch : Stamps) (m m' : DjitMeta) : Prop where
  writers : Trails tr epoch m.writerVc m.writerInstTable m'.writerVc m'.writerInstTable
  readers : Trails tr epoch m.readerVc m.readerInstTable m'.readerVc m'.readerInstTable
  racy : m'.racy = m.racy

section Meta
variable {tr : List Hook} {epoch epoch' : Stamps} {n : ℕ} {m m' : DjitMeta} {b : DetectorBase Unit}
  {curr : ThreadId} {k : RaceEventType} {inst : InstId} {addr size : Address} {currVc : VectorClock}

theorem MetaTrails.restamp (trails : MetaTrails tr epoch m m')
    (kept : ∀ {i e}, epoch i = some e → epoch' i = some e) : MetaTrails tr epoch' m m' :=
  ⟨trails.writers.restamp kept, trails.readers.restamp kept, trails.racy⟩

/-- One unit of an access that passes the gate. -/
theorem MetaTrails.process (trails : MetaTrails tr epoch m m') (x : Address) (tree : ThreadTree tr)
    (inv : ClockInv tr n b epoch) (here : tr[n]? = some (k.hook curr inst addr size))
    (found : b.currVcMap[curr]? = some currVc) (kept : ∀ {i e}, epoch i = some e → epoch' i = some e)
    (stamp : epoch' n = some (curr, currVc.getClock curr)) :
    ∃ v out v' out', djit.process k b curr x m inst = some (v, out) ∧
      djit.process k b curr x m' inst = some (v', out') ∧ MetaTrails tr epoch' v v' ∧
      ∀ call, call ∈ out ↔ call ∈ out' := by
  obtain ⟨racedW, callsW, callsW', ranW, ranW', sameW⟩ := trails.writers.check tree inv here found
    (fun thdId writerInst => ⟨x, thdId, writerInst, .write, curr, inst, k⟩)
  have writers := trails.writers.restamp kept
  have readers := trails.readers.restamp kept
  cases k with
  | read =>
    refine ⟨_, _, _, _, Djit.processRead_eq found ranW, Djit.processRead_eq found ranW',
      ⟨writers, readers.record stamp, ?_⟩, sameW⟩
    simp only [trails.racy]
  | write =>
    obtain ⟨racedR, callsR, callsR', ranR, ranR', sameR⟩ := trails.readers.check tree inv here found
      (fun thdId readerInst => ⟨x, thdId, readerInst, .read, curr, inst, .write⟩)
    refine ⟨_, _, _, _, Djit.processWrite_eq found ranW ranR, Djit.processWrite_eq found ranW' ranR',
      ⟨writers.record stamp, readers, ?_⟩, fun call => ?_⟩
    · simp only [trails.racy]
    · simp only [List.mem_append, sameW, sameR]

/-- One unit of an access that the gate keeps out. -/
theorem MetaTrails.process_keptOut (trails : MetaTrails tr epoch m m') (x : Address) (tree : ThreadTree tr)
    (inv : ClockInv tr n b epoch) (here : tr[n]? = some (k.hook curr inst addr size))
    (closed : gateOpen (progressAt tr n) = false) (found : b.currVcMap[curr]? = some currVc)
    (kept : ∀ {i e}, epoch i = some e → epoch' i = some e)
    (stamp : epoch' n = some (curr, b.clockOf (.thread curr) curr)) :
    ∃ v', djit.process k b curr x m' inst = some (v', []) ∧ MetaTrails tr epoch' m v' := by
  have ranW := trails.writers.check_keptOut tree inv here closed found
    (fun thdId writerInst => ⟨x, thdId, writerInst, .write, curr, inst, k⟩)
  have keptOut : KeptOut tr n curr := ⟨⟨k, inst, addr, size, here⟩, closed⟩
  rw [clockOf_of_vc found] at stamp
  have recorded := clockOf_of_vc found curr
  cases k with
  | read =>
    refine ⟨_, Djit.processRead_eq found ranW, trails.writers.restamp kept, ?_, ?_⟩
    · rw [← recorded] at stamp ⊢
      exact trails.readers.record_keptOut inv keptOut kept stamp
    · simp only [trails.racy, Bool.or_false]
  | write =>
    have ranR := trails.readers.check_keptOut tree inv here closed found
      (fun thdId readerInst => ⟨x, thdId, readerInst, .read, curr, inst, .write⟩)
    refine ⟨_, Djit.processWrite_eq found ranW ranR, ?_, trails.readers.restamp kept, ?_⟩
    · rw [← recorded] at stamp ⊢
      exact trails.writers.record_keptOut inv keptOut kept stamp
    · simp only [trails.racy, Bool.or_false]

end Meta

/-- The gated and the ungated detector share their base state. -/
structure GateRel (tr : List Hook) (n : ℕ) (d d' : Detector Unit DjitMeta) (epoch : Stamps) : Prop where
  base : d'.toDetectorBase = d.toDetectorBase
  clocks : ClockInv tr n d.toDetectorBase epoch
  units : ∀ x : Address, MetaTrails tr epoch (d.metaTable[x]?.getD {}) (d'.metaTable[x]?.getD {})

section Step
variable {tr : List Hook} {n : ℕ} {d d' : Detector Unit DjitMeta} {epoch : Stamps} {e : Hook}

/-- What one hook must show of the two detectors. -/
def StepsAlike (tr : List Hook) (n : ℕ) : Option (Detector Unit DjitMeta × List DbCall) →
    Option (Detector Unit DjitMeta × List DbCall) → Prop :=
  Option.Rel fun r r' => (∃ epoch, GateRel tr (n + 1) r.1 r'.1 epoch) ∧ SameRaces r.2 r'.2

theorem GateRel.silent (rel : GateRel tr n d d' epoch) (tree : ThreadTree tr) (here : tr[n]? = some e)
    {f : DetectorBase Unit → Option (DetectorBase Unit)}
    (hook : ∀ b', f d.toDetectorBase = some b' → d.onHook djit e = some b') :
    StepsAlike tr n (d.silent (f d.toDetectorBase)) (d'.silent (f d'.toDetectorBase)) := by
  rw [rel.base]
  cases result : f d.toDetectorBase with
  | none => exact .none
  | some b =>
    have grown := rel.clocks.hook (.base rfl rfl rfl) tree here (hook b result)
    exact .some ⟨⟨epoch, rfl, grown, rel.units⟩, fun _ => Iff.rfl⟩

theorem GateRel.access (rel : GateRel tr n d d' epoch) (tree : ThreadTree tr) {k : RaceEventType}
    {curr : ThreadId} {inst : InstId} {addr size : Address}
    (here : tr[n]? = some (k.hook curr inst addr size)) :
    StepsAlike tr n (d.beforeMem djit (djit.process k) curr inst addr size)
      (d'.beforeMem ungatedDjit (djit.process k) curr inst addr size) := by
  obtain ⟨b, metaTable⟩ := d'
  obtain rfl : b = d.toDetectorBase := rel.base
  let epoch' := Function.update epoch n (some (curr, d.clockOf (.thread curr) curr))
  have stamp : epoch' n = some (curr, d.clockOf (.thread curr) curr) := Function.update_self ..
  have clocks : ClockInv tr (n + 1) d.toDetectorBase epoch' := rel.clocks.access tree here
  have kept : ∀ {i e}, epoch i = some e → epoch' i = some e := by
    intro i e stamp
    exact (Function.update_of_ne (rel.clocks.past (t := e.1) (s := e.2) stamp).1.ne _ _).trans stamp
  have units := fun x => (rel.units x).restamp kept
  have same : progressAt tr (n + 1) = progressAt tr n := by simp [progressAt_succ here]
  obtain ⟨currVc, found, _⟩ := rel.clocks.present (t := curr)
    (same ▸ (tree.acting_runs here (thread_hook ..)).1)
  have gated : gate d.toDetectorBase = gateOpen (progressAt tr n) := gate_of_counted rel.clocks.counted
  have looked : Detector.monitored ungatedDjit d.toDetectorBase curr addr =
      (!d.filter.filter addr && !d.atomicMap[curr]?.getD false) := by
    simp [Detector.monitored, ungatedDjit]
  have looks : Detector.monitored djit d.toDetectorBase curr addr =
      ((!d.filter.filter addr && !d.atomicMap[curr]?.getD false) && gateOpen (progressAt tr n)) := by
    simp only [Detector.monitored, djit, gated]
  unfold Detector.beforeMem
  rw [looked, looks]
  cases (!d.filter.filter addr && !d.atomicMap[curr]?.getD false) with
  | false => exact .some ⟨⟨epoch', rfl, clocks, units⟩, fun _ => Iff.rfl⟩
  | true =>
    cases opened : gateOpen (progressAt tr n) with
    | true =>
      have processed := fun x => (rel.units x).process x tree rel.clocks here
        found kept (stamp.trans (by rw [clockOf_of_vc found]))
      obtain ⟨last, outs, ran, posts, frame, made⟩ := accessLoop_exact djit.newMeta
        (fun x m => djit.process k d.toDetectorBase curr x m inst) (unitsOf d.unitSize addr size)
        (unitsOf_nodup ..) d.metaTable (fun x _ => by
          obtain ⟨v, out, _, _, ran, _⟩ := processed x
          exact ⟨v, out, ran⟩)
      obtain ⟨last', outs', ran', posts', frame', made'⟩ := accessLoop_exact ungatedDjit.newMeta
        (fun x m => djit.process k d.toDetectorBase curr x m inst) (unitsOf d.unitSize addr size)
        (unitsOf_nodup ..) metaTable (fun x _ => by
          obtain ⟨_, _, v', out', _, ran', _⟩ := processed x
          exact ⟨v', out', ran'⟩)
      have rows : StepsAlike tr n (some ({ d with metaTable := last }, outs))
          (some (⟨d.toDetectorBase, last'⟩, outs')) := by
        refine .some ⟨⟨epoch', rfl, clocks, fun x => ?_⟩, fun race => ?_⟩
        · by_cases member : x ∈ unitsOf d.unitSize addr size
          · obtain ⟨v, out, v', out', ranX, ranX', trails, _⟩ := processed x
            obtain ⟨_, post⟩ := posts x member
            obtain ⟨_, post'⟩ := posts' x member
            cases ranX.symm.trans post
            cases ranX'.symm.trans post'
            exact trails
          · simp only [frame x member, frame' x member]
            exact units x
        · simp only [made, made']
          refine exists_congr fun x => and_congr_right fun _ => ?_
          obtain ⟨v, out, v', out', ranX, ranX', _, same⟩ := processed x
          constructor
          · rintro ⟨w, calls, ranW, member⟩
            cases ranX.symm.trans ranW
            exact ⟨v', out', ranX', (same _).mp member⟩
          · rintro ⟨w, calls, ranW, member⟩
            cases ranX'.symm.trans ranW
            exact ⟨v, out, ranX, (same _).mpr member⟩
      simpa [ran, ran'] using rows
    | false =>
      have processed := fun x => (rel.units x).process_keptOut x tree rel.clocks
        here opened found kept stamp
      obtain ⟨last', outs', ran', posts', frame', made'⟩ := accessLoop_exact ungatedDjit.newMeta
        (fun x m => djit.process k d.toDetectorBase curr x m inst) (unitsOf d.unitSize addr size)
        (unitsOf_nodup ..) metaTable (fun x _ => by
          obtain ⟨v', ran', _⟩ := processed x
          exact ⟨v', [], ran'⟩)
      have rows : StepsAlike tr n (some (d, [])) (some (⟨d.toDetectorBase, last'⟩, outs')) := by
        refine .some ⟨⟨epoch', rfl, clocks, fun x => ?_⟩, fun race => ?_⟩
        · by_cases member : x ∈ unitsOf d.unitSize addr size
          · obtain ⟨v', ranX', trails⟩ := processed x
            obtain ⟨_, post'⟩ := posts' x member
            cases ranX'.symm.trans post'
            exact trails
          · simp only [frame' x member]
            exact units x
        · simp only [made', List.not_mem_nil, false_iff]
          rintro ⟨x, _, v, out, ranX, member⟩
          obtain ⟨v', ranX', _⟩ := processed x
          cases ranX.symm.trans ranX'
          cases member
      simpa [ran'] using rows

theorem releaseInsts_silent (track racy : Bool) (set : Std.ExtTreeSet InstId) (race : RaceReport) :
    .createRace race ∉ releaseInsts track racy set := by
  unfold releaseInsts
  split <;> simp

theorem freeLoop_silent (b : DetectorBase Unit) (units : List Address) (table : OrdMap Address DjitMeta)
    (race : RaceReport) : .createRace race ∉ (freeLoop (Djit.processFree b) units table).2 := by
  intro member
  obtain ⟨m, called⟩ := (freeLoop_spec (Djit.processFree b) units table).2 _ member
  exact releaseInsts_silent _ _ _ race called

/-- Freeing a region forgets the same units on both sides, and reports no race. -/
theorem GateRel.free (rel : GateRel tr n d d' epoch) (addr : Address) :
    GateRel tr n (d.freeAddrRegion djit addr).1 (d'.freeAddrRegion ungatedDjit addr).1 epoch ∧
      ∀ race, .createRace race ∉ (d.freeAddrRegion djit addr).2 ∧
        .createRace race ∉ (d'.freeAddrRegion ungatedDjit addr).2 := by
  unfold Detector.freeAddrRegion
  rw [rel.base]
  by_cases null : addr = 0
  · rw [if_pos null, if_pos null]
    exact ⟨rel, fun race => ⟨List.not_mem_nil, List.not_mem_nil⟩⟩
  · rw [if_neg null, if_neg null]
    refine ⟨⟨?_, rel.clocks.of_grows ⟨.of_clocks rfl, rfl, rfl⟩, fun x => ?_⟩, fun race =>
      ⟨freeLoop_silent _ _ _ race, freeLoop_silent _ _ _ race⟩⟩
    · rfl
    · have entry := fun (table : OrdMap Address DjitMeta) => (freeLoop_spec (Djit.processFree d.toDetectorBase)
        (unitsOf d.unitSize addr (d.filter.removeRegion addr).1) table).1 x
      simp only [djit, ungatedDjit, entry]
      split
      · exact ⟨.blank, .blank, rfl⟩
      · exact rel.units x

/-- A hook of no thread that leaves the clocks alone. -/
theorem GateRel.next (rel : GateRel tr n d d' epoch) (tree : ThreadTree tr) (here : tr[n]? = some e)
    (threadless : e.thread = none) : GateRel tr (n + 1) d d' epoch := by
  refine ⟨rel.base, rel.clocks.grow tree here ⟨.of_clocks rfl, rfl, rfl⟩ ?_ ?_, rel.units⟩ <;>
  · rintro curr other rfl
    exact nomatch threadless

theorem GateRel.step (rel : GateRel tr n d d' epoch) (tree : ThreadTree tr) (here : tr[n]? = some e) :
    StepsAlike tr n (d.step djit e) (d'.step ungatedDjit e) := by
  have freed : ∀ addr, e.thread = none → StepsAlike tr n (some (d.freeAddrRegion djit addr))
      (some (d'.freeAddrRegion ungatedDjit addr)) := by
    intro addr threadless
    obtain ⟨rel', calls⟩ := rel.free addr
    exact .some ⟨⟨epoch, rel'.next tree here threadless⟩, fun race => iff_of_false (calls race).1 (calls race).2⟩
  cases e with
  | beforeMemRead curr inst addr size => exact rel.access (k := .read) tree here
  | beforeMemWrite curr inst addr size => exact rel.access (k := .write) tree here
  | beforeRealloc addr | beforeFree addr => exact freed addr rfl
  | imageUnload lowAddr dataStart bssStart =>
    obtain ⟨middle, calls⟩ := rel.free dataStart
    obtain ⟨last, moreCalls⟩ := middle.free bssStart
    simp only [Detector.step, Detector.imageUnload]
    by_cases loaded : lowAddr ≠ 0
    · rw [debugAssert_pos loaded]
      refine .some ⟨⟨epoch, last.next tree here rfl⟩, fun race => ?_⟩
      simp only [List.mem_append, calls, moreCalls, or_self]
    · rw [debugAssert, if_neg loaded]
      exact .none
  | _ => exact rel.silent (f := fun b => b.onHook djit _) tree here fun _ result => result

end Step

/-- The gate of `Detector1` loses nothing: an access that it keeps out is ordered
with every access of every other thread by program, fork and join order alone,
and Djit reports the same races without it. -/
theorem gate_loses_nothing {unitSize : Address} {trackRacyInst : Bool} {filter : RegionFilter}
    {tr : List Hook} (tree : ThreadTree tr) :
    (∀ {G M : Type} (alg : Algorithm G M) (own : G), OnDetector1 alg →
      ∀ (i : ℕ) (d : Detector G M) (outs : List (List DbCall)) (k : RaceEventType) (t : ThreadId)
        (inst : InstId) (addr size : Address),
      Detector.run alg (start M unitSize trackRacyInst filter own) (tr.take i) = some (d, outs) →
      tr[i]? = some (k.hook t inst addr size) → alg.gate d.toDetectorBase = false →
      ∀ (j : ℕ) (l : RaceEventType) (u : ThreadId) (inst' : InstId) (addr' size' : Address),
        tr[j]? = some (l.hook u inst' addr' size') → u ≠ t →
        forkJoinOrder.HB tr i j ∨ forkJoinOrder.HB tr j i) ∧
    Option.Rel (fun gated ungated => List.Forall₂ SameRaces gated.2 ungated.2)
      (Detector.run djit (start _ unitSize trackRacyInst filter ()) tr)
      (Detector.run ungatedDjit (start _ unitSize trackRacyInst filter ()) tr) := by
  constructor
  · intro G M alg own derived i d outs k t inst addr size ran there closed j l u inst' addr' size' here
      other
    have bound := (List.getElem?_eq_some_iff.mp there).1
    have counted := derived.counted ⟨rfl, rfl⟩ bound.le ran
    rw [derived.gate, gate_of_counted counted] at closed
    exact tree.ordered_of_closed there closed here (thread_hook ..) other
  · have clocks : ClockInv tr 0 (start DjitMeta unitSize trackRacyInst filter ()).toDetectorBase
        fun _ => none := by
      refine ⟨?_, ?_, ?_, ⟨rfl, rfl⟩⟩
      · exact fun stamp => nomatch stamp
      · exact fun stamp => nomatch stamp
      · exact fun member => nomatch member
    have stepped : ∀ n (d d' : Detector Unit DjitMeta) e, tr[n]? = some e →
        (∃ epoch, GateRel tr n d d' epoch) → StepsAlike tr n (d.step djit e) (d'.step ungatedDjit e) := by
      rintro n d d' e here ⟨epoch, rel⟩
      exact rel.step tree here
    have related := Runs.run_related (fun n d d' => ∃ epoch, GateRel tr n d d' epoch) SameRaces tr
      stepped (start DjitMeta unitSize trackRacyInst filter ())
      (start DjitMeta unitSize trackRacyInst filter ())
      ⟨fun _ => none, rfl, clocks, fun x => by simpa [start] using ⟨.blank, .blank, rfl⟩⟩
    unfold Detector.run
    generalize Runs.run (Detector.step djit) _ tr = gated at related ⊢
    generalize Runs.run (Detector.step ungatedDjit) _ tr = ungated at related ⊢
    cases related with
    | none => exact .none
    | some both => exact .some both.2

/-- The main thread writes before it starts a second thread and after it joined it. -/
def joinTrace : List Hook :=
  [.threadStart 1 invalidThdId, .beforeMemWrite 1 7 8 4, .threadStart 2 1, .beforeMemWrite 2 9 8 4,
    .afterPthreadJoin 1 2, .beforeMemWrite 1 7 8 4, .beforeFree 8]

theorem gate_loses_nothing_join :
    (∀ {G M : Type} (alg : Algorithm G M) (own : G), OnDetector1 alg →
      ∀ (i : ℕ) (d : Detector G M) (outs : List (List DbCall)) (k : RaceEventType) (t : ThreadId)
        (inst : InstId) (addr size : Address),
      Detector.run alg (start M 4 false (.addRegion {} 8 4) own) (joinTrace.take i) = some (d, outs) →
      joinTrace[i]? = some (k.hook t inst addr size) → alg.gate d.toDetectorBase = false →
      ∀ (j : ℕ) (l : RaceEventType) (u : ThreadId) (inst' : InstId) (addr' size' : Address),
        joinTrace[j]? = some (l.hook u inst' addr' size') → u ≠ t →
        forkJoinOrder.HB joinTrace i j ∨ forkJoinOrder.HB joinTrace j i) ∧
    Option.Rel (fun gated ungated => List.Forall₂ SameRaces gated.2 ungated.2)
      (Detector.run djit (start _ 4 false (.addRegion {} 8 4) ()) joinTrace)
      (Detector.run ungatedDjit (start _ 4 false (.addRegion {} 8 4) ()) joinTrace) :=
  gate_loses_nothing (by decide)

end Maple.Pintool
