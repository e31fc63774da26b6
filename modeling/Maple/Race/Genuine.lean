import Maple.Race.DjitExact

/-! Soundness of reports. A detector's record is made by a stamped access; if the
current thread has not seen the stamp, the access is unordered and may be reported. -/
namespace Maple.Race

/-- A report at position `n`: the named access was made earlier by another thread,
one of the two accesses writes, and the two are `Unrelated`. -/
structure Genuine (unitSize : Address) (tr : List Hook)
    (Unrelated : ℕ → ThreadId → ℕ → ThreadId → Prop) (n : ℕ) (r : RaceReport) : Prop where
  access : Accesses unitSize tr r.p1 r.addr n r.t1 r.i1
  other : r.t0 ≠ r.t1
  conflict : Conflict r.p0 r.p1
  earlier : ∃ i < n, Accesses unitSize tr r.p0 r.addr i r.t0 r.i0 ∧ Unrelated i r.t0 n r.t1

/-- Access `i` has the given kind, instruction and stamp. -/
def Made (unitSize : Address) (tr : List Hook) (epoch : Stamps) (n : ℕ) (k : RaceEventType)
    (x : Address) (t : ThreadId) (s : ℕ) (inst : InstId) (i : ℕ) : Prop :=
  i < n ∧ Accesses unitSize tr k x i t inst ∧ epoch i = some (t, s)

section Made
variable {unitSize : Address} {tr : List Hook} {epoch epoch' : Stamps} {n i s : ℕ}
  {k l : RaceEventType} {x : Address} {t curr : ThreadId} {inst inst' : InstId} {addr size : Address}
  {order : Causality.Model Hook Channel} {G : Type} {b : DetectorBase G} {currVc : VectorClock}

theorem Made.later (made : Made unitSize tr epoch n k x t s inst i) :
    Made unitSize tr epoch (n + 1) k x t s inst i :=
  ⟨Nat.lt_succ_of_lt made.1, made.2⟩

theorem Made.restamp (made : Made unitSize tr epoch n k x t s inst i)
    (same : ∀ i < n, epoch' i = epoch i) : Made unitSize tr epoch' n k x t s inst i :=
  ⟨made.1, made.2.1, (same i made.1).trans made.2.2⟩

/-- The access at hand. -/
theorem Made.here (here : tr[n]? = some (k.hook t inst addr size)) (member : x ∈ unitsOf unitSize addr size)
    (stamp : epoch n = some (t, s)) : Made unitSize tr epoch (n + 1) k x t s inst n :=
  ⟨Nat.lt_succ_self n, ⟨addr, size, here, member⟩, stamp⟩

/-- A thread has seen its own stamps. -/
theorem Made.le_own (made : Made unitSize tr epoch n k x curr s inst i)
    (sync : SyncInv order tr n b epoch) (found : b.currVcMap[curr]? = some currVc) :
    s ≤ currVc.getClock curr := by
  have bound := (sync.exact.stamped made.2.2).2.2
  simpa only [DetectorBase.view, clockOf_of_vc found] using bound

theorem Made.unordered (made : Made unitSize tr epoch n k x t s inst i) (hooks : HookOrder order)
    (sync : SyncInv order tr (n + 1) b epoch) (here : tr[n]? = some (l.hook curr inst' addr size))
    (found : b.currVcMap[curr]? = some currVc) (unseen : currVc.getClock t < s) :
    ¬ order.HB tr i n := by
  have exact := sync.exact.exact made.2.2 (.thread curr)
  simp only [DetectorBase.view, clockOf_of_vc found] at exact
  rw [hooks.hb_access_iff here, ← hooks.known_access here made.1.ne, exact, Nat.not_le]
  exact unseen

/-- The report of an unseen record. -/
theorem Made.genuine (made : Made unitSize tr epoch n k x t s inst i)
    {Unrelated : ℕ → ThreadId → ℕ → ThreadId → Prop}
    (here : tr[n]? = some (l.hook curr inst' addr size)) (member : x ∈ unitsOf unitSize addr size)
    (other : curr ≠ t) (conflict : Conflict k l) (unrelated : Unrelated i t n curr) :
    Genuine unitSize tr Unrelated n ⟨x, t, inst, k, curr, inst', l⟩ where
  access := ⟨addr, size, here, member⟩
  other := other.symm
  conflict := conflict
  earlier := ⟨i, made.1, made.2.1, unrelated⟩

/-- What holds at an access that is looked at. -/
structure Looks (order : Causality.Model Hook Channel) (unitSize : Address) (tr : List Hook)
    (epoch : Stamps) (n : ℕ) (x : Address) (b : DetectorBase G) (l : RaceEventType) (curr : ThreadId)
    (inst : InstId) (currVc : VectorClock) : Prop where
  hook : ∃ addr size, tr[n]? = some (l.hook curr inst addr size) ∧ x ∈ unitsOf unitSize addr size
  sync : SyncInv order tr (n + 1) b epoch
  found : b.currVcMap[curr]? = some currVc
  stamp : epoch n = some (curr, currVc.getClock curr)

theorem exists_looks (here : tr[n]? = some (k.hook curr inst addr size))
    (member : x ∈ unitsOf unitSize addr size) (sync : SyncInv order tr (n + 1) b epoch)
    (stamp : epoch n = some (curr, b.clockOf (.thread curr) curr)) (runs : (progressAt tr n).Runs curr) :
    ∃ currVc, Looks order unitSize tr epoch n x b k curr inst currVc := by
  have next : progressAt tr (n + 1) = progressAt tr n := by simp [progressAt_succ here]
  obtain ⟨currVc, found⟩ := sync.present (t := curr) (by rw [next]; exact runs.1)
  rw [clockOf_of_vc found] at stamp
  exact ⟨currVc, ⟨addr, size, here, member⟩, sync, found, stamp⟩

theorem Looks.made (looks : Looks order unitSize tr epoch n x b k curr inst currVc) :
    Made unitSize tr epoch (n + 1) k x curr (currVc.getClock curr) inst n := by
  obtain ⟨addr, size, here, member⟩ := looks.hook
  exact Made.here here member looks.stamp

end Made

section Marks
variable {G M : Type} {alg : Algorithm G M} {d next : Detector G M} {out : List DbCall}

/-- A loop that finished has processed each of its units once. -/
theorem accessLoop_inv {newMeta : M} {process : Address → M → Option (M × List DbCall)}
    {units : List Address} (distinct : units.Nodup) {table last : OrdMap Address M} {outs : List DbCall}
    (looped : accessLoop newMeta process units table = some (last, outs)) (x : Address) :
    (x ∉ units → last[x]? = table[x]?) ∧ (x ∈ units → ∃ v calls,
      process x (table[x]?.getD newMeta) = some (v, calls) ∧ last[x]? = some v ∧
      ∀ call ∈ calls, call ∈ outs) := by
  induction units generalizing table outs with
  | nil =>
    cases looped
    exact ⟨fun _ => rfl, fun member => nomatch member⟩
  | cons iaddr rest ih =>
    obtain ⟨absent, distinct⟩ := List.nodup_cons.mp distinct
    simp only [accessLoop, Option.bind_eq_bind, Option.bind_eq_some_iff] at looped
    obtain ⟨⟨changed, out⟩, ran, ⟨final, tail⟩, continued, emitted⟩ := looped
    cases Option.some.inj emitted
    obtain ⟨frame, processed⟩ := ih distinct continued
    by_cases same : x = iaddr
    · subst same
      refine ⟨fun outside => absurd List.mem_cons_self outside, fun _ => ⟨changed, out, ran, ?_, ?_⟩⟩
      · rw [frame absent, getElem?_insert_address, if_pos rfl]
      · exact fun call made => List.mem_append_left _ made
    · have before : (table.insert iaddr changed)[x]? = table[x]? := by
        rw [getElem?_insert_address, if_neg (Ne.symm same)]
      rw [before] at frame processed
      refine ⟨fun outside => frame (mt (List.mem_cons_of_mem _) outside), fun member => ?_⟩
      obtain ⟨v, calls, ran', entry, among⟩ := processed ((List.mem_cons.mp member).resolve_left same)
      exact ⟨v, calls, ran', entry, fun call made => List.mem_append_right _ (among call made)⟩

/-- What one hook of an access does to one unit. -/
theorem Detector.step_unit {k : RaceEventType} {curr : ThreadId} {inst : InstId} {addr size : Address}
    (stepped : d.step alg (k.hook curr inst addr size) = some (next, out)) (x : Address) :
    next.metaTable[x]? = d.metaTable[x]? ∨ x ∈ unitsOf d.unitSize addr size ∧ ∃ v calls,
      alg.process k d.toDetectorBase curr x (d.metaTable[x]?.getD alg.newMeta) inst = some (v, calls) ∧
      next.metaTable[x]? = some v ∧ ∀ call ∈ calls, call ∈ out := by
  rw [step_hook, Detector.beforeMem] at stepped
  split at stepped
  · simp only [Option.bind_eq_bind, Option.bind_eq_some_iff] at stepped
    obtain ⟨⟨table, outs⟩, looped, emitted⟩ := stepped
    cases Option.some.inj emitted
    obtain ⟨frame, processed⟩ := accessLoop_inv (unitsOf_nodup _ _ _) looped x
    by_cases member : x ∈ unitsOf d.unitSize addr size
    · exact Or.inr ⟨member, processed member⟩
    · exact Or.inl (frame member)
  · cases stepped
    exact Or.inl rfl

theorem Detector.silent_metaTable {b : Option (DetectorBase G)} (ran : d.silent b = some (next, out)) :
    next.metaTable = d.metaTable := by
  simp only [Detector.silent, Option.map_eq_some_iff, Prod.mk.injEq] at ran
  obtain ⟨b', -, rfl, -⟩ := ran
  rfl

end Marks

/-- The hooks of conforming traces, and the function calls of running threads. -/
def Progress.AdmitsCalls (p : Progress) : Hook → Prop
  | .beforeCall curr _ => p.Runs curr
  | e => p.Admits e

instance (p : Progress) (e : Hook) : Decidable (p.AdmitsCalls e) := by
  induction e using Hook.casesOn <;> simp only [Progress.AdmitsCalls] <;> infer_instance

structure ConformsWithCalls (unitSize : Address) (tr : List Hook) : Prop where
  admitted : ∀ n e, tr[n]? = some e → (progressAt tr n).AdmitsCalls e
  aligned : ∀ e ∈ tr, e.Aligned unitSize

theorem conformsWithCalls_iff (unitSize : Address) (tr : List Hook) : ConformsWithCalls unitSize tr ↔
    (∀ n : Fin tr.length, (progressAt tr n).AdmitsCalls (tr.get n)) ∧ ∀ e ∈ tr, e.Aligned unitSize := by
  constructor
  · intro conforms
    exact ⟨fun n => conforms.admitted n _ (List.getElem?_eq_getElem n.isLt), conforms.aligned⟩
  · rintro ⟨admitted, aligned⟩
    refine ⟨fun n e here => ?_, aligned⟩
    obtain ⟨bound, same⟩ := List.getElem?_eq_some_iff.mp here
    exact same ▸ admitted ⟨n, bound⟩

instance (unitSize : Address) (tr : List Hook) : Decidable (ConformsWithCalls unitSize tr) :=
  decidable_of_iff _ (conformsWithCalls_iff unitSize tr).symm

theorem forkJoin_call (curr : ThreadId) (target : Address) (c : Channel) :
    (forkJoinOrder.acquires (.beforeCall curr target) c ↔ c = .thread curr) ∧
    (forkJoinOrder.releases (.beforeCall curr target) c ↔ c = .thread curr) := by
  simp only [forkJoinOrder, syncOrder, Hook.thread]
  constructor <;> constructor
  · rintro ⟨(⟨t, same, rfl⟩ | ⟨_, _, impossible, _⟩ | ⟨_, _, impossible, _⟩ | ⟨_, _, impossible, _⟩), _⟩
    · cases same
      rfl
    all_goals cases impossible
  · rintro rfl
    exact ⟨Or.inl ⟨curr, rfl, rfl⟩, curr, rfl⟩
  · rintro ⟨(⟨t, same, rfl⟩ | ⟨_, _, impossible, _⟩), _⟩
    · cases same
      rfl
    · cases impossible
  · rintro rfl
    exact ⟨Or.inl ⟨curr, rfl, rfl⟩, curr, rfl⟩

section Calls
variable {G M : Type} {alg : Algorithm G M} {opened : Progress → Bool} {Own : Progress → G → Prop}
  {Plain : List Hook → Prop} {unitSize : Address} {tr : List Hook} {Cond : Detector G M → Hook → Prop}
  {UnitInv : Stamps → ℕ → Address → M → Prop} {Report Due : ℕ → Address → DbCall → Prop}
  {start d : Detector G M} {n : ℕ} {epoch : Stamps}

/-- Own members that no clock depends on. -/
theorem SyncInv.setOwn {order : Causality.Model Hook Channel} {b : DetectorBase G}
    (sync : SyncInv order tr n b epoch) (own : G) : SyncInv order tr n { b with own := own } epoch :=
  ⟨sync.exact, sync.past, sync.present, sync.held, sync.quiet, sync.valid, sync.counted⟩

/-- A function call only changes own members. -/
theorem RunInv.call (analyses : alg.Analyses forkJoinOrder opened Own start.unitSize tr Cond UnitInv Report Due)
    (inv : RunInv forkJoinOrder Own tr UnitInv alg.newMeta start n d epoch) {curr : ThreadId}
    {target : Address} (here : tr[n]? = some (.beforeCall curr target))
    (calls : Own (progressAt tr n) d.own → Own (progressAt tr n) (alg.beforeCall d.own curr target)) :
    ∃ next out, d.step alg (.beforeCall curr target) = some (next, out) ∧
      (∃ epoch', RunInv forkJoinOrder Own tr UnitInv alg.newMeta start (n + 1) next epoch') ∧
      Emits opened start.unitSize tr Report Due n out := by
  have sync := inv.sync.local here (fun c => (forkJoin_call curr target c).1)
    (fun c => (forkJoin_call curr target c).2) rfl
  refine inv.silent analyses here (fun k => by cases k <;> nofun) rfl (sync.setOwn _) ⟨rfl, rfl, rfl⟩ ?_
  rw [progressAt_succ here]
  exact calls inv.own

/-- One hook of a trace with calls. -/
theorem RunInv.stepWithCalls (tracks : alg.Tracks forkJoinOrder opened Own Plain)
    (analyses : alg.Analyses forkJoinOrder opened Own start.unitSize tr Cond UnitInv Report Due)
    (calls : ∀ p own curr target, Own p own → Own p (alg.beforeCall own curr target))
    (sees : Monitored start.filter tr ∨ Blind UnitInv Due)
    (inv : RunInv forkJoinOrder Own tr UnitInv alg.newMeta start n d epoch) (plain : Plain tr) {e : Hook}
    (cond : Cond d e) (here : tr[n]? = some e) (admitted : (progressAt tr n).AdmitsCalls e)
    (aligned : e.Aligned start.unitSize) :
    ∃ next out, d.step alg e = some (next, out) ∧
      (∃ epoch', RunInv forkJoinOrder Own tr UnitInv alg.newMeta start (n + 1) next epoch') ∧
      Emits opened start.unitSize tr Report Due n out := by
  cases e with
  | beforeCall curr target => exact inv.call analyses here (calls _ _ curr target)
  | _ => exact inv.step tracks analyses sees plain cond here admitted aligned

end Calls
end Maple.Race
