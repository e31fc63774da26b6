import Maple.Pintool.HistLockPlus

/-! The hybrid detectors report only accesses under disjoint locksets that fork and
join do not order. -/
namespace Maple.Pintool
open Race

/-- What a run guarantees of its outputs. -/
def ReportsApart (unitSize : Address) (tr : List Hook) (outs : List (List DbCall)) : Prop :=
  outs.length = tr.length ∧ ∀ n out, outs[n]? = some out → ∀ r, .createRace r ∈ out →
    Genuine unitSize tr (LocksApart tr) n r

section
variable {unitSize : Address} {tr : List Hook} {n : ℕ}

theorem reportsApart_of_emits {opened : Progress → Bool} {Due : ℕ → Address → DbCall → Prop}
    {outs : List (List DbCall)} (length : outs.length = tr.length)
    (emits : ∀ n out, outs[n]? = some out →
      Emits opened unitSize tr (HybridCall unitSize tr) Due n out) : ReportsApart unitSize tr outs := by
  refine ⟨length, fun n out found r made => ?_⟩
  obtain ⟨k, x, t, inst, -, r', same, genuine⟩ := (emits n out found).reported _ made
  cases same
  exact genuine

theorem holds_none : Holds {} ∅ := by
  intro t a
  simp [MultiLock.locksetOf]

theorem accuLock_step (first : Detector (OrdMap ThreadId Lockset) AccuLockMeta)
    {d : Detector (OrdMap ThreadId Lockset) AccuLockMeta} {epoch : Stamps} {e : Hook}
    (inv : RunInv forkJoinOrder Holds tr (AccuLockReal first.unitSize tr) {} first n d epoch)
    (here : tr[n]? = some e) (conforms : ConformsWithCalls first.unitSize tr) (frees : UnlocksFree tr) :
    ∃ next out, d.step accuLock e = some (next, out) ∧
      (∃ epoch', RunInv forkJoinOrder Holds tr (AccuLockReal first.unitSize tr) {} first (n + 1) next epoch') ∧
      Emits gateOpen first.unitSize tr (HybridCall first.unitSize tr) (fun _ _ _ => False) n out :=
  inv.stepWithCalls accuLock_tracks accuLock_sound (fun _ _ _ _ holds => holds) (Or.inr accuLock_blind)
    frees trivial here (conforms.admitted n e here) (conforms.aligned e (List.mem_of_getElem? here))

/-- One hook of HistLockPlus, which also resets a count at thread start. -/
theorem histLockPlus_step (first : Detector HistLockPlusOwn HistLockPlusMeta)
    {d : Detector HistLockPlusOwn HistLockPlusMeta} {epoch : Stamps} {e : Hook}
    (inv : RunInv forkJoinOrder HoldsOwn tr (HistLockPlusReal first.unitSize tr) {} first n d epoch)
    (here : tr[n]? = some e) (conforms : ConformsWithCalls first.unitSize tr) (frees : UnlocksFree tr) :
    ∃ next out, HistLockPlus.step d e = some (next, out) ∧
      (∃ epoch', RunInv forkJoinOrder HoldsOwn tr (HistLockPlusReal first.unitSize tr) {} first
        (n + 1) next epoch') ∧
      Emits gateOpen first.unitSize tr (HybridCall first.unitSize tr) (fun _ _ _ => False) n out := by
  have admitted := conforms.admitted n e here
  have aligned := conforms.aligned e (List.mem_of_getElem? here)
  have others : HistLockPlus.step d e = d.step histLockPlus e → ∃ next out,
      HistLockPlus.step d e = some (next, out) ∧ (∃ epoch', RunInv forkJoinOrder HoldsOwn tr
        (HistLockPlusReal first.unitSize tr) {} first (n + 1) next epoch') ∧
      Emits gateOpen first.unitSize tr (HybridCall first.unitSize tr) (fun _ _ _ => False) n out := by
    intro same
    rw [same]
    exact inv.stepWithCalls histLockPlus_tracks histLockPlus_sound (fun _ _ _ _ holds => holds)
      (Or.inr histLockPlus_blind) frees trivial here admitted aligned
  cases e with
  | threadStart curr parent =>
    obtain ⟨b', result, sync, settings, own⟩ := inv.sync.threadStart here admitted
      (forkJoinOrder_hooks.startAcquires curr parent) (forkJoinOrder_hooks.startReleases curr parent)
    have restarted : HistLockPlus.threadStart d.toDetectorBase curr parent = some { b' with
        own := { b'.own with releaseCntMap := b'.own.releaseCntMap.insert curr 0 } } := by
      simp [HistLockPlus.threadStart, result]
    apply inv.silent histLockPlus_sound here (fun k => by cases k <;> nofun) restarted (sync.setOwn _)
      ⟨settings.filter, settings.unitSize, settings.trackRacyInst⟩
    have holds : Holds (progressAt tr n) b'.own.locksetMap := own ▸ inv.own
    rw [progressAt_succ here]
    exact holds
  | _ => exact others rfl

theorem histLockPlus_run {filter : RegionFilter} {trackRacyInst : Bool} (conforms : ConformsWithCalls unitSize tr)
    (frees : UnlocksFree tr) :
    ∃ last outs, HistLockPlus.run (start _ unitSize trackRacyInst filter {}) tr = some (last, outs) ∧
      ReportsApart unitSize tr outs := by
  let first : Detector HistLockPlusOwn HistLockPlusMeta := start _ unitSize trackRacyInst filter {}
  obtain ⟨last, outs, ran, -, length, emits⟩ := Runs.run_invariant
    (fun n d => ∃ epoch, RunInv forkJoinOrder HoldsOwn tr (HistLockPlusReal unitSize tr) {} first n d epoch)
    (fun n out => Emits gateOpen unitSize tr (HybridCall unitSize tr) (fun _ _ _ => False) n out) tr (by
      rintro n d e here ⟨epoch, inv⟩
      exact histLockPlus_step first inv here conforms frees) first
    ⟨fun _ => none, syncInv_zero (start_fresh ..), ⟨rfl, rfl, rfl⟩, holds_none, fun x => ⟨.blank, .blank⟩⟩
  exact ⟨last, outs, ran, reportsApart_of_emits length emits⟩

theorem accuLock_run {filter : RegionFilter} {trackRacyInst : Bool} (conforms : ConformsWithCalls unitSize tr)
    (frees : UnlocksFree tr) :
    ∃ last outs, Detector.run accuLock (start _ unitSize trackRacyInst filter ∅) tr = some (last, outs) ∧
      ReportsApart unitSize tr outs := by
  let first : Detector (OrdMap ThreadId Lockset) AccuLockMeta := start _ unitSize trackRacyInst filter ∅
  obtain ⟨last, outs, ran, -, length, emits⟩ := Runs.run_invariant
    (fun n d => ∃ epoch, RunInv forkJoinOrder Holds tr (AccuLockReal unitSize tr) {} first n d epoch)
    (fun n out => Emits gateOpen unitSize tr (HybridCall unitSize tr) (fun _ _ _ => False) n out) tr (by
      rintro n d e here ⟨epoch, inv⟩
      exact accuLock_step first inv here conforms frees) first
    ⟨fun _ => none, syncInv_zero (start_fresh ..), ⟨rfl, rfl, rfl⟩, holds_none, fun x => .blank⟩
  exact ⟨last, outs, ran, reportsApart_of_emits length emits⟩

/-- AccuLock and HistLockPlus run over every conforming trace without unlocks of a
mutex that is locked twice, and each of their reports is of an earlier conflicting
access with a disjoint lockset that fork and join do not order before the current one. -/
theorem hybrid_reports_genuine {filter : RegionFilter} {trackRacyInst : Bool}
    (conforms : ConformsWithCalls unitSize tr) (frees : UnlocksFree tr) :
    (∃ last outs, Detector.run accuLock (start _ unitSize trackRacyInst filter ∅) tr = some (last, outs) ∧
      ReportsApart unitSize tr outs) ∧
    ∃ last outs, HistLockPlus.run (start _ unitSize trackRacyInst filter {}) tr = some (last, outs) ∧
      ReportsApart unitSize tr outs :=
  ⟨accuLock_run conforms frees, histLockPlus_run conforms frees⟩

/-- Two writes under different mutexes, from a call and without one. -/
def hybridTrace : List Hook :=
  [.threadStart 1 invalidThdId, .threadStart 2 1, .afterPthreadMutexLock 1 16, .beforeCall 1 64,
    .beforeMemWrite 1 7 8 4, .beforePthreadMutexUnlock 1 16, .afterPthreadMutexLock 2 24,
    .beforeMemWrite 2 9 8 4]

theorem hybrid_reports_genuine_mutexes :
    (∃ last outs, Detector.run accuLock (start _ 4 false (.addRegion {} 8 4) ∅) hybridTrace =
      some (last, outs) ∧ ReportsApart 4 hybridTrace outs) ∧
    ∃ last outs, HistLockPlus.run (start _ 4 false (.addRegion {} 8 4) {}) hybridTrace =
      some (last, outs) ∧ ReportsApart 4 hybridTrace outs :=
  hybrid_reports_genuine (by decide) (by decide)

/-- Thread 1 writes under a mutex that it has locked twice and released once, thread 2
writes under the same mutex. -/
def relockTrace : List Hook :=
  [.threadStart 1 invalidThdId, .threadStart 2 1, .afterPthreadMutexLock 1 16, .afterPthreadMutexLock 1 16,
    .beforePthreadMutexUnlock 1 16, .beforeMemWrite 1 7 8 4, .beforePthreadMutexUnlock 1 16,
    .afterPthreadMutexLock 2 16, .beforeMemWrite 2 9 8 4]

theorem relock_held {t : ThreadId} {i : ℕ} {inst : InstId} (access : Accesses 4 relockTrace .write 8 i t inst)
    (before : i < 8) : Held relockTrace i t 16 := by
  obtain ⟨addr, size, here, -⟩ := access
  interval_cases i <;> simp [relockTrace, RaceEventType.hook] at here
  obtain ⟨rfl, -⟩ := here
  decide

/-- Both detectors take the mutex out of the lockset at the first unlock, and report
the two writes although both were made under it. -/
theorem hybrid_reports_relocked : ConformsWithCalls 4 relockTrace ∧
    (∃ last outs, Detector.run accuLock (start _ 4 false (.addRegion {} 8 4) ∅) relockTrace = some (last, outs) ∧
      ¬ ReportsApart 4 relockTrace outs) ∧
    ∃ last outs, HistLockPlus.run (start _ 4 false (.addRegion {} 8 4) {}) relockTrace = some (last, outs) ∧
      ¬ ReportsApart 4 relockTrace outs := by
  let report : RaceReport := ⟨8, 1, 7, .write, 2, 9, .write⟩
  have reported {outs : List (List DbCall)} (made : outs[8]? = some [.createRace report]) :
      ¬ ReportsApart 4 relockTrace outs := by
    rintro ⟨-, apart⟩
    obtain ⟨i, before, access, -, locks⟩ := (apart 8 _ made report List.mem_cons_self).earlier
    exact locks 16 (relock_held access before) (by decide)
  have accu : (Detector.run accuLock (start _ 4 false (.addRegion {} 8 4) ∅) relockTrace).map (·.2[8]?) =
      some (some [.createRace report]) := by decide
  have hist : (HistLockPlus.run (start _ 4 false (.addRegion {} 8 4) {}) relockTrace).map (·.2[8]?) =
      some (some [.createRace report]) := by decide
  obtain ⟨⟨last, outs⟩, ran, made⟩ := Option.map_eq_some_iff.mp accu
  obtain ⟨⟨last', outs'⟩, ran', made'⟩ := Option.map_eq_some_iff.mp hist
  exact ⟨by decide, ⟨last, outs, ran, reported made⟩, last', outs', ran', reported made'⟩

end
end Maple.Pintool
