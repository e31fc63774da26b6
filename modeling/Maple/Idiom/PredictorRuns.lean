import Maple.Idiom.Prediction
import Maple.Lib.Runs

/-! Runs of `idiom/predictor_new.cc` together with the accesses that its summaries stand
for. An access waits until the next one of its thread, or the free, summarises it. -/
namespace Maple.Idiom

/-- Beside the predictor: the accesses so far, the last one of each thread at each meta,
and the summaries that took them in. -/
structure PredictorRun where
  base : PredictorNew := {}
  log : List Access := []
  lastOf : MetaId → ThreadId → Option ℕ := fun _ _ => none
  summaryOf : ℕ → Option ℕ := fun _ => none

inductive PredictorEvent where
  | processiRootEvent (curr : ThreadId) (clk : ℕ) (type : IRootEventType) (inst : InstId) (metaId : MetaId)
  | sync (e : SyncEvent)

namespace PredictorRun

/-- The last access of the thread at the meta goes to the summary. -/
def summarised (r : PredictorRun) (metaId : MetaId) (thdId : ThreadId) (accSum : Option ℕ) : ℕ → Option ℕ :=
  match accSum, r.lastOf metaId thdId with
  | some s, some n => Function.update r.summaryOf n (some s)
  | _, _ => r.summaryOf

def step (ptrs : Pointers) (atomicInstSet : InstId → Bool) (r : PredictorRun) : PredictorEvent → Option PredictorRun
  | .processiRootEvent curr clk type inst metaId => do
    let vc ← r.base.sync.currVcMap[curr]?
    let (base, accSum) ← r.base.processiRootEvent ptrs atomicInstSet curr clk type inst metaId
    return {
      base := base
      log := r.log ++ [⟨metaId, curr, clk, type, inst, vc⟩]
      lastOf := fun m t => if m = metaId ∧ t = curr then some r.log.length else r.lastOf m t
      summaryOf := r.summarised metaId curr accSum }
  | .sync e => do
    let sync ← r.base.sync.step e
    return { r with base := { r.base with sync := sync } }

/-- A thread starts once. -/
def Allows (r : PredictorRun) : PredictorEvent → Prop
  | .processiRootEvent .. => True
  | .sync e => r.base.sync.Allows e

instance (r : PredictorRun) (e : PredictorEvent) : Decidable (r.Allows e) := by
  unfold Allows
  split <;> infer_instance

def freeStep (ptrs : Pointers) (atomicInstSet : InstId → Bool) (metaId : MetaId) (r : PredictorRun)
    (entry : ThreadId × DynAcc) : Option PredictorRun :=
  (r.base.processLast ptrs atomicInstSet entry.2).map fun got =>
    { r with base := got.1, summaryOf := r.summarised metaId entry.1 (some got.2) }

/-- `processFree`, which summarises the last access of each thread. -/
def free (ptrs : Pointers) (atomicInstSet : InstId → Bool) (r : PredictorRun) (metaId : MetaId) :
    Option PredictorRun :=
  (r.base.accHisto metaId).lastDynAccTable.toList.foldlM (freeStep ptrs atomicInstSet metaId) r

/-- Summaries and accesses tell the same story. -/
structure Hist (atomicInstSet : InstId → Bool) (r : PredictorRun) : Prop where
  sums : r.base.SumsInv atomicInstSet PredictorNew.allClocks
  placed : ∀ m t n, r.lastOf m t = some n → ∃ access, r.log[n]? = some access ∧ access.metaId = m ∧ access.thdId = t
  last : ∀ m t dynAcc, (r.base.accHisto m).lastDynAccTable[t]? = some dynAcc →
    ∃ n, r.lastOf m t = some n ∧ r.log[n]? = some dynAcc.access ∧ r.base.Fits dynAcc
  pending : ∀ (n : ℕ) access, r.log[n]? = some access → r.summaryOf n = none →
    r.lastOf access.metaId access.thdId = some n ∧ access.thdId ∈ (r.base.accHisto access.metaId).lastDynAccTable
  taken : ∀ n s, r.summaryOf n = some s → ∃ access a, r.log[n]? = some access ∧ r.base.accSums[s]? = some a ∧
    Fields a access ∧ access.vc ∈ a.clocks
  covered : ∀ (s : ℕ) a, r.base.accSums[s]? = some a → ∀ v ∈ a.clocks,
    ∃ n access, r.summaryOf n = some s ∧ r.log[n]? = some access ∧ access.vc = v

/-- The last access of the thread has not been summarised. -/
def Waits (r : PredictorRun) (m : MetaId) (t : ThreadId) : Prop := ∀ n, r.lastOf m t = some n → r.summaryOf n = none

variable {ptrs : Pointers} {atomicInstSet : InstId → Bool} {r next : PredictorRun} {m m' : MetaId} {t t' : ThreadId}

theorem Hist.lastOf_injective (hist : r.Hist atomicInstSet) {n : ℕ} (first : r.lastOf m t = some n)
    (second : r.lastOf m' t' = some n) : m = m' ∧ t = t' := by
  obtain ⟨access, logged, rfl, rfl⟩ := hist.placed m t n first
  obtain ⟨access', logged', rfl, rfl⟩ := hist.placed m' t' n second
  cases logged.symm.trans logged'
  exact ⟨rfl, rfl⟩

/-- The waiting access of a thread is summarised. -/
theorem Hist.summarise (ptrs : Pointers) (hist : r.Hist atomicInstSet) {dynAcc : DynAcc}
    (stored : (r.base.accHisto m).lastDynAccTable[t]? = some dynAcc) (waits : r.Waits m t) (fls : FLockSet) :
    ∃ base s n, r.base.processAccSumUpdate ptrs atomicInstSet { dynAcc with fls := fls } = some (base, s) ∧
      r.lastOf m t = some n ∧ r.summarised m t (some s) = Function.update r.summaryOf n (some s) ∧
      base.sync = r.base.sync ∧
      (∀ m, (base.accHisto m).lastDynAccTable = (r.base.accHisto m).lastDynAccTable) ∧
      ({ r with base := base, summaryOf := Function.update r.summaryOf n (some s) } : PredictorRun).Hist atomicInstSet := by
  obtain ⟨n, lastOf, logged, fits⟩ := hist.last m t dynAcc stored
  obtain ⟨access, logged', rfl, rfl⟩ := hist.placed m t n lastOf
  cases logged.symm.trans logged'
  have unsummarised := waits n lastOf
  obtain ⟨base, s, ran, sums, taken⟩ := PredictorNew.processAccSumUpdate_spec ptrs
    hist.sums (⟨fits.later, fits.current⟩ : r.base.Fits { dynAcc with fls := fls })
  obtain ⟨a, found, fields, members⟩ := taken.summary
  refine ⟨base, s, n, ran, lastOf, by simp only [summarised, lastOf], taken.sync, taken.last, ?_⟩
  constructor
  case sums => exact sums
  case placed => exact hist.placed
  case last =>
    intro m' t' dynAcc' stored'
    rw [taken.last] at stored'
    obtain ⟨n', lastOf', logged', fits'⟩ := hist.last m' t' dynAcc' stored'
    obtain ⟨access, logged'', rfl, rfl⟩ := hist.placed m' t' n' lastOf'
    cases logged'.symm.trans logged''
    refine ⟨n', lastOf', logged', ⟨fun i b foundB sameMeta sameThd v member => ?_, by rw [taken.sync]; exact fits'.current⟩⟩
    by_cases own : i = s
    · subst own
      cases found.symm.trans foundB
      rcases (members v).mp member with rfl | ⟨old, foundOld, member⟩
      · -- The thread has one waiting access at the meta.
        have sameMeta : dynAcc.access.metaId = dynAcc'.access.metaId := fields.metaId.symm.trans sameMeta
        have sameThd : dynAcc.access.thdId = dynAcc'.access.thdId := fields.thdId.symm.trans sameThd
        rw [← sameMeta, ← sameThd] at stored'
        cases stored.symm.trans stored'
        exact VectorClock.happensBefore_refl _
      · exact fits'.later _ old foundOld ((taken.fields old foundOld).metaId.trans (fields.metaId.symm.trans sameMeta))
          ((taken.fields old foundOld).thdId.trans (fields.thdId.symm.trans sameThd)) v member
    · rw [taken.others i own] at foundB
      exact fits'.later i b foundB sameMeta sameThd v member
  case pending =>
    intro n' access logged' open'
    by_cases same : n' = n
    · subst same
      simp at open'
    · replace open' : r.summaryOf n' = none := (Function.update_of_ne same _ _).symm.trans open'
      obtain ⟨lastOf', waiting⟩ := hist.pending n' access logged' open'
      exact ⟨lastOf', by rw [taken.last]; exact waiting⟩
  case taken =>
    intro n' s' summary
    by_cases same : n' = n
    · subst same
      cases (Function.update_self n' (some s) r.summaryOf).symm.trans summary
      exact ⟨dynAcc.access, a, logged, found, fields, (members _).mpr (Or.inl rfl)⟩
    · replace summary : r.summaryOf n' = some s' := (Function.update_of_ne same _ _).symm.trans summary
      obtain ⟨access, old, logged', foundOld, fields', member⟩ := hist.taken n' s' summary
      by_cases own : s' = s
      · subst own
        have shared := taken.fields old foundOld
        exact ⟨access, a, logged', found,
          ⟨fields.metaId.trans (shared.metaId.symm.trans fields'.metaId),
            fields.thdId.trans (shared.thdId.symm.trans fields'.thdId),
            fields.type.trans (shared.type.symm.trans fields'.type),
            fields.inst.trans (shared.inst.symm.trans fields'.inst)⟩,
          (members _).mpr (Or.inr ⟨old, foundOld, member⟩)⟩
      · exact ⟨access, old, logged', by rw [taken.others s' own]; exact foundOld, fields', member⟩
  case covered =>
    intro s' b foundB v member
    have kept : ∀ n' s', r.summaryOf n' = some s' → Function.update r.summaryOf n (some s) n' = some s' := by
      intro n' s' summary
      rw [Function.update_of_ne, summary]
      rintro rfl
      exact nomatch unsummarised.symm.trans summary
    by_cases own : s' = s
    · subst own
      cases found.symm.trans foundB
      rcases (members v).mp member with rfl | ⟨old, foundOld, member⟩
      · exact ⟨n, dynAcc.access, Function.update_self .., logged, rfl⟩
      · obtain ⟨n', access, summary, logged', same⟩ := hist.covered s' old foundOld v member
        exact ⟨n', access, kept n' s' summary, logged', same⟩
    · rw [taken.others s' own] at foundB
      obtain ⟨n', access, summary, logged', same⟩ := hist.covered s' b foundB v member
      exact ⟨n', access, kept n' s' summary, logged', same⟩

/-- A new access waits. -/
theorem Hist.record {dynAcc : DynAcc} (hist : r.Hist atomicInstSet)
    (summarised : ∀ n, r.lastOf dynAcc.metaId dynAcc.thdId = some n → r.summaryOf n ≠ none)
    (now : r.base.sync.currVcMap[dynAcc.thdId]? = some dynAcc.vc) :
    ({ r with
        base := r.base.setLastDynAcc dynAcc
        log := r.log ++ [dynAcc.access]
        lastOf := fun m t => if m = dynAcc.metaId ∧ t = dynAcc.thdId then some r.log.length else r.lastOf m t } :
      PredictorRun).Hist atomicInstSet := by
  have extends_ : ∀ (n : ℕ) access, r.log[n]? = some access → (r.log ++ [dynAcc.access])[n]? = some access := by
    intro n access logged
    rw [List.getElem?_append_left (List.getElem?_eq_some_iff.mp logged).1, logged]
  have newest : (r.log ++ [dynAcc.access])[r.log.length]? = some dynAcc.access := List.getElem?_concat_length
  constructor
  case sums =>
    refine ⟨fun m t s => ?_, hist.sums.nonempty, hist.sums.ordered, hist.sums.current, hist.sums.wf, hist.sums.known,
      hist.sums.pairs⟩
    rw [PredictorNew.sumsOf_setLastDynAcc]
    exact hist.sums.table m t s
  case placed =>
    intro m t n lastOf
    dsimp only at lastOf
    split at lastOf
    · next here =>
        cases lastOf
        exact ⟨dynAcc.access, newest, here.1.symm, here.2.symm⟩
    · obtain ⟨access, logged, same⟩ := hist.placed m t n lastOf
      exact ⟨access, extends_ n access logged, same⟩
  case last =>
    intro m t dynAcc' stored
    rw [PredictorNew.last_setLastDynAcc] at stored
    dsimp only
    split at stored
    · next here =>
        cases stored
        refine ⟨r.log.length, if_pos here, newest, ⟨fun s a found _ sameThd v member => ?_, dynAcc.vc, now,
          VectorClock.happensBefore_refl _⟩⟩
        obtain ⟨vc, now', upTo⟩ := hist.sums.current s a found
        rw [sameThd, now] at now'
        cases now'
        exact upTo v member
    · next other =>
        obtain ⟨n, lastOf, logged, fits⟩ := hist.last m t dynAcc' stored
        exact ⟨n, (if_neg other).trans lastOf, extends_ n _ logged, ⟨fits.later, fits.current⟩⟩
  case pending =>
    intro n access logged waiting
    rw [Std.ExtTreeMap.mem_iff_isSome_getElem?, PredictorNew.last_setLastDynAcc]
    dsimp only
    have bound := (List.getElem?_eq_some_iff.mp logged).1
    rw [List.length_append, List.length_singleton] at bound
    rcases Nat.lt_succ_iff_lt_or_eq.mp bound with before | rfl
    · rw [List.getElem?_append_left before] at logged
      obtain ⟨lastOf, listed⟩ := hist.pending n access logged waiting
      split
      · next here => exact absurd waiting (summarised n (by rw [← here.1, ← here.2]; exact lastOf))
      · exact ⟨lastOf, Std.ExtTreeMap.mem_iff_isSome_getElem?.mp listed⟩
    · cases newest.symm.trans logged
      rw [if_pos ⟨rfl, rfl⟩, if_pos ⟨rfl, rfl⟩]
      exact ⟨rfl, rfl⟩
  case taken =>
    intro n s summary
    obtain ⟨access, a, logged, rest⟩ := hist.taken n s summary
    exact ⟨access, a, extends_ n access logged, rest⟩
  case covered =>
    intro s a found v member
    obtain ⟨n, access, summary, logged, same⟩ := hist.covered s a found v member
    exact ⟨n, access, summary, extends_ n access logged, same⟩

theorem Hist.sync {sync : SyncState} (hist : r.Hist atomicInstSet)
    (ages : Ages r.base.sync.currVcMap sync.currVcMap) :
    ({ r with base := { r.base with sync := sync } } : PredictorRun).Hist atomicInstSet := by
  constructor
  case sums =>
    refine ⟨hist.sums.table, hist.sums.nonempty, hist.sums.ordered, fun s a found => ?_, hist.sums.wf, hist.sums.known,
      hist.sums.pairs⟩
    obtain ⟨vc, now, upTo⟩ := hist.sums.current s a found
    obtain ⟨vc', later, grown⟩ := ages a.thdId vc now
    exact ⟨vc', later, fun v member => VectorClock.happensBefore_trans (upTo v member) grown⟩
  case placed => exact hist.placed
  case last =>
    intro m t dynAcc stored
    obtain ⟨n, lastOf, logged, fits⟩ := hist.last m t dynAcc stored
    obtain ⟨vc, now, upTo⟩ := fits.current
    obtain ⟨vc', later, grown⟩ := ages dynAcc.thdId vc now
    exact ⟨n, lastOf, logged, ⟨fits.later, vc', later, VectorClock.happensBefore_trans upTo grown⟩⟩
  case pending => exact hist.pending
  case taken => exact hist.taken
  case covered => exact hist.covered

/-- The invariant of the runs: before the free every thread's last access waits. -/
structure Inv (atomicInstSet : InstId → Bool) (r : PredictorRun) : Prop where
  hist : r.Hist atomicInstSet
  waits : ∀ m t, r.Waits m t

theorem inv_initial : ({} : PredictorRun).Inv atomicInstSet where
  hist := {
    sums := {
      table := fun m t s => by simp [PredictorNew.sumsOf, PredictorNew.accHisto]
      nonempty := nofun
      ordered := nofun
      current := nofun
      wf := ⟨fun s => by simp [PairIndex.succOf], fun d => by simp [PairIndex.predOf], fun s d => by
        simp [PairIndex.succOf, PairIndex.predOf]⟩
      known := fun s d member => by simp [PairIndex.succOf] at member
      pairs := nofun }
    placed := nofun
    last := fun m t dynAcc stored => by simp [PredictorNew.accHisto] at stored
    pending := nofun
    taken := nofun
    covered := nofun }
  waits := nofun

theorem Hist.recorded (dynAcc : DynAcc) (hist : r.Hist atomicInstSet)
    (summarised : ∀ n, r.lastOf dynAcc.metaId dynAcc.thdId = some n → r.summaryOf n ≠ none)
    (now : r.base.sync.currVcMap[dynAcc.thdId]? = some dynAcc.vc)
    (others : ∀ m t, ¬(m = dynAcc.metaId ∧ t = dynAcc.thdId) → r.Waits m t) :
    ({ r with
        base := r.base.setLastDynAcc dynAcc
        log := r.log ++ [dynAcc.access]
        lastOf := fun m t => if m = dynAcc.metaId ∧ t = dynAcc.thdId then some r.log.length else r.lastOf m t } :
      PredictorRun).Inv atomicInstSet := by
  refine ⟨hist.record summarised now, fun m t n lastOf => ?_⟩
  dsimp only at lastOf ⊢
  split at lastOf
  · cases lastOf
    apply Option.eq_none_iff_forall_ne_some.mpr
    intro s summary
    obtain ⟨access, _, logged, _⟩ := hist.taken _ s summary
    exact (List.getElem?_eq_some_iff.mp logged).1.false
  · next other => exact others m t other n lastOf

/-- An access of a started thread never fails. -/
theorem Inv.access (ptrs : Pointers) (m : MetaId) (inv : r.Inv atomicInstSet) {vc : VectorClock} {ls : LockSet}
    (clk : ℕ) (type : IRootEventType)
    (inst : InstId) (now : r.base.sync.currVcMap[t]? = some vc) (locks : r.base.sync.currLsMap[t]? = some ls) :
    ∃ next, r.step ptrs atomicInstSet (.processiRootEvent t clk type inst m) = some next ∧
      next.Inv atomicInstSet := by
  simp only [step, PredictorNew.processiRootEvent, now, locks, Option.bind_eq_bind, Option.bind_some]
  cases stored : (r.base.accHisto m).lastDynAccTable[t]? with
  | none =>
    have unknown : r.lastOf m t = none := by
      apply Option.eq_none_iff_forall_ne_some.mpr
      intro n lastOf
      obtain ⟨access, logged, rfl, rfl⟩ := inv.hist.placed m t n lastOf
      have listed := (inv.hist.pending n access logged (inv.waits _ _ n lastOf)).2
      exact nomatch stored.symm.trans (Std.ExtTreeMap.getElem?_eq_some_getElem listed)
    exact ⟨_, rfl, inv.hist.recorded ⟨m, t, clk, type, inst, vc, ls, _⟩
      (fun n lastOf => nomatch unknown.symm.trans lastOf) now fun m t _ => inv.waits m t⟩
  | some dynAcc =>
    obtain ⟨base, s, n, ran, lastOf, summarised, sync, last, hist⟩ := inv.hist.summarise ptrs stored
      (inv.waits m t) (dynAcc.fls.updateLastFlag dynAcc.ls (some ls))
    simp only [ran, Option.map_some, Option.bind_some, Option.pure_def, summarised]
    refine ⟨_, rfl, hist.recorded ⟨m, t, clk, type, inst, vc, ls, _⟩ ?_ ?_ ?_⟩
    · intro n' lastOf'
      cases lastOf.symm.trans lastOf'
      simp
    · rw [← now, ← sync]
    · intro m' t' other n' lastOf'
      have apart : n' ≠ n := by
        rintro rfl
        exact other (inv.hist.lastOf_injective lastOf' lastOf)
      exact (Function.update_of_ne apart _ _).trans (inv.waits m' t' n' lastOf')

theorem Inv.step {e : PredictorEvent} (inv : r.Inv atomicInstSet) (allowed : r.Allows e)
    (stepped : r.step ptrs atomicInstSet e = some next) : next.Inv atomicInstSet := by
  cases e with
  | processiRootEvent t clk type inst m =>
    obtain ⟨vc, now, rest⟩ := Option.bind_eq_some_iff.mp stepped
    obtain ⟨_, ran, _⟩ := Option.bind_eq_some_iff.mp rest
    obtain ⟨_, _, rest⟩ := Option.bind_eq_some_iff.mp ran
    obtain ⟨ls, locks, _⟩ := Option.bind_eq_some_iff.mp rest
    obtain ⟨next', ran, inv⟩ := inv.access ptrs m clk type inst now locks
    cases stepped.symm.trans ran
    exact inv
  | sync e =>
    obtain ⟨sync, ran, same⟩ := Option.bind_eq_some_iff.mp stepped
    cases same
    exact ⟨inv.hist.sync (SyncState.ages_step allowed ran), inv.waits⟩

/-- The loop over the last accesses of the threads. -/
theorem Hist.freeLoop (ptrs : Pointers) (m : MetaId) (entries : List (ThreadId × DynAcc)) (hist : r.Hist atomicInstSet)
    (stored : ∀ entry ∈ entries, (r.base.accHisto m).lastDynAccTable[entry.1]? = some entry.2)
    (distinct : entries.Pairwise fun e f => e.1 ≠ f.1) (waits : ∀ entry ∈ entries, r.Waits m entry.1) :
    ∃ next, entries.foldlM (freeStep ptrs atomicInstSet m) r = some next ∧
      entries.foldlM (fun p entry => (p.processLast ptrs atomicInstSet entry.2).map Prod.fst) r.base = some next.base ∧
      next.Hist atomicInstSet ∧ next.log = r.log ∧ next.lastOf = r.lastOf ∧
      (∀ m, (next.base.accHisto m).lastDynAccTable = (r.base.accHisto m).lastDynAccTable) ∧
      (∀ n, next.summaryOf n = none → r.summaryOf n = none) ∧
      ∀ entry ∈ entries, ∀ n, r.lastOf m entry.1 = some n → next.summaryOf n ≠ none := by
  induction entries generalizing r with
  | nil => exact ⟨r, rfl, rfl, hist, rfl, rfl, fun _ => rfl, fun _ => id, nofun⟩
  | cons entry entries ih =>
    obtain ⟨others, distinct⟩ := List.pairwise_cons.mp distinct
    obtain ⟨storedHere, stored⟩ := List.forall_mem_cons.mp stored
    obtain ⟨waitsHere, waits⟩ := List.forall_mem_cons.mp waits
    obtain ⟨base, s, n, ran, lastOf, summarised, _, last, hist'⟩ := hist.summarise ptrs storedHere waitsHere
      (entry.2.fls.updateLastFlag entry.2.ls none)
    have stepped : r.freeStep ptrs atomicInstSet m entry =
        some { r with base := base, summaryOf := Function.update r.summaryOf n (some s) } := by
      simp only [freeStep, PredictorNew.processLast, ran, Option.map_some, summarised]
    have stepped' : (r.base.processLast ptrs atomicInstSet entry.2).map Prod.fst = some base := by
      rw [PredictorNew.processLast, ran, Option.map_some]
    have stillWaits : ∀ other ∈ entries,
        ({ r with base := base, summaryOf := Function.update r.summaryOf n (some s) } : PredictorRun).Waits m other.1 := by
      intro other member n' lastOf'
      have apart : n' ≠ n := by
        rintro rfl
        exact others other member (hist.lastOf_injective lastOf lastOf').2
      exact (Function.update_of_ne apart _ _).trans (waits other member n' lastOf')
    obtain ⟨next, looped, looped', hist, log, lasts, tables, kept, done⟩ := ih hist'
      (fun other member => by rw [last]; exact stored other member) distinct stillWaits
    have sofar : ∀ n', next.summaryOf n' = none → n' ≠ n ∧ r.summaryOf n' = none := by
      intro n' unsummarised
      have before := kept n' unsummarised
      by_cases same : n' = n
      · subst same
        simp at before
      · exact ⟨same, (Function.update_of_ne same _ _).symm.trans before⟩
    refine ⟨next, ?_, ?_, hist, log, lasts, fun m' => (tables m').trans (last m'), fun n' open' => (sofar n' open').2, ?_⟩
    · rw [List.foldlM_cons, stepped]
      exact looped
    · rw [List.foldlM_cons, stepped']
      exact looped'
    · intro other member n' lastOf' unsummarised
      rcases List.mem_cons.mp member with rfl | later
      · cases lastOf.symm.trans lastOf'
        exact (sofar n unsummarised).1 rfl
      · exact done other later n' lastOf' unsummarised

/-- Every access of the meta is in a summary of its thread, its instruction and its kind;
the recorded pairs are the ones that some two of these accesses allow, each once. -/
structure Exact (atomicInstSet : InstId → Bool) (r : PredictorRun) (m : MetaId) : Prop where
  summarised : ∀ (n : ℕ) access, r.log[n]? = some access → access.metaId = m →
    ∃ s a, r.summaryOf n = some s ∧ r.base.accSums[s]? = some a ∧ Fields a access
  recorded : ∀ (s d : ℕ) src dst, r.base.accSums[s]? = some src → r.base.accSums[d]? = some dst →
    src.metaId = m → dst.metaId = m →
    (d ∈ r.base.pairs.succOf s ↔ src.thdId ≠ dst.thdId ∧ checkConflict src.type dst.type = true ∧
      checkMutexExclution src.fls dst.fls = true ∧ checkAtomic atomicInstSet src dst = true ∧
      ∃ n access k access', r.summaryOf n = some s ∧ r.log[n]? = some access ∧
        r.summaryOf k = some d ∧ r.log[k]? = some access' ∧ Incomparable access.vc access'.vc)
  once : r.base.pairs.Wf

theorem Hist.exact (hist : r.Hist atomicInstSet)
    (all : ∀ (n : ℕ) access, r.log[n]? = some access → access.metaId = m → r.summaryOf n ≠ none) :
    r.Exact atomicInstSet m := by
  constructor
  case summarised =>
    intro n access logged same
    obtain ⟨s, summary⟩ := Option.ne_none_iff_exists'.mp (all n access logged same)
    obtain ⟨access', a, logged', found, fields, _⟩ := hist.taken n s summary
    cases logged.symm.trans logged'
    exact ⟨s, a, summary, found, fields⟩
  case recorded =>
    intro s d src dst foundS foundD rfl same
    rw [hist.sums.pairs s d src dst foundS foundD]
    constructor
    · rintro ⟨_, apart, ⟨conflict, exclusion, atomic⟩, v, memberV, w, memberW, incomparable⟩
      obtain ⟨n, access, summary, logged, rfl⟩ := hist.covered s src foundS v memberV
      obtain ⟨k, access', summary', logged', rfl⟩ := hist.covered d dst foundD w memberW
      exact ⟨apart, conflict, exclusion, atomic, n, access, k, access', summary, logged, summary', logged', incomparable⟩
    · rintro ⟨apart, conflict, exclusion, atomic, n, access, k, access', summary, logged, summary', logged', incomparable⟩
      obtain ⟨_, a, logged₁, found, _, memberV⟩ := hist.taken n s summary
      cases logged.symm.trans logged₁
      cases foundS.symm.trans found
      obtain ⟨_, b, logged₂, found', _, memberW⟩ := hist.taken k d summary'
      cases logged'.symm.trans logged₂
      cases foundD.symm.trans found'
      exact ⟨same.symm, apart, ⟨conflict, exclusion, atomic⟩, access.vc, memberV, access'.vc, memberW, incomparable⟩
  case once => exact hist.sums.wf

/-- After any run the free makes the recorded dependencies of the meta exact. -/
theorem prediction_exact (ptrs : Pointers) (atomicInstSet : InstId → Bool)
    (reached : Runs.Reach (· = {}) Allows (step ptrs atomicInstSet) r) (m : MetaId) :
    ∃ next, r.free ptrs atomicInstSet m = some next ∧
      r.base.processFree ptrs atomicInstSet m = some next.base ∧ next.log = r.log ∧ next.Exact atomicInstSet m := by
  have inv : r.Inv atomicInstSet := by
    apply reached.invariant (Inv atomicInstSet)
    · rintro _ rfl
      exact inv_initial
    · intro r e next inv allowed stepped
      exact inv.step allowed stepped
  obtain ⟨next, freed, freed', hist, log, lasts, tables, _, done⟩ := inv.hist.freeLoop ptrs m
    (r.base.accHisto m).lastDynAccTable.toList (fun entry member => Std.ExtTreeMap.mem_toList_iff_getElem?_eq_some.mp member)
    (Std.ExtTreeMap.distinct_keys_toList.imp fun apart same => apart (by simp [same])) (fun entry _ => inv.waits m entry.1)
  refine ⟨next, freed, freed', log, hist.exact fun n access logged same unsummarised => ?_⟩
  subst same
  obtain ⟨lastOf, listed⟩ := hist.pending n access logged unsummarised
  rw [tables] at listed
  have stored := Std.ExtTreeMap.getElem?_eq_some_getElem listed
  exact done (access.thdId, _) (Std.ExtTreeMap.mem_toList_iff_getElem?_eq_some.mpr stored) n
    (by rw [← lasts]; exact lastOf) unsummarised

/-- Two threads write without synchronisation after the start of the second one. -/
theorem prediction_exact_writes : ∃ r next : PredictorRun,
    r.free ⟨fun _ => 0, fun _ => 0⟩ (fun _ => false) 7 = some next ∧ next.Exact (fun _ => false) 7 ∧
      next.base.pairs.succOf 0 = [1] ∧ next.base.pairs.succOf 1 = [0] := by
  have both : (Runs.follow Allows (step ⟨fun _ => 0, fun _ => 0⟩ fun _ => false) {}
      [.sync (.threadStart 0 invalidThdId), .sync (.threadStart 1 0), .processiRootEvent 0 1 .memWrite 4 7,
        .processiRootEvent 1 1 .memWrite 5 7]).any (fun r =>
      (r.free ⟨fun _ => 0, fun _ => 0⟩ (fun _ => false) 7).any fun next =>
        next.base.pairs.succOf 0 = [1] && next.base.pairs.succOf 1 = [0]) = true := by
    decide +kernel
  obtain ⟨r, reached, passed⟩ : ∃ r, Runs.Reach (· = ({} : PredictorRun)) Allows
      (step ⟨fun _ => 0, fun _ => 0⟩ fun _ => false) r ∧ _ :=
    Runs.Reach.of_follow (by rfl) _ both
  obtain ⟨next, freed, _, _, exact_⟩ := prediction_exact _ _ reached 7
  refine ⟨r, next, freed, exact_, ?_⟩
  rw [freed] at passed
  simpa using passed

end PredictorRun
end Maple.Idiom
