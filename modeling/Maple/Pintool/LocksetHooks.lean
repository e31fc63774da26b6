import Maple.Race.UnitSteps
import Maple.Race.Growth
import Maple.Pintool.Eraser
import Maple.Pintool.HistLock
import Maple.Pintool.HistLockPlus

/-! The locksets of the detectors against the mutexes that threads hold. The hooks are
those that `ExecutionControl` delivers; after a trylock the detectors have none. -/
namespace Maple.Pintool
open Race

section
variable {G M : Type} {alg : Algorithm G M} {d next : Detector G M} {e : Hook} {out : List DbCall}

theorem freeAddrRegion_own (alg : Algorithm G M) (d : Detector G M) (addr : Address) :
    (d.freeAddrRegion alg addr).1.own = d.own := by
  unfold Detector.freeAddrRegion
  split <;> rfl

theorem beforeMem_own {process : DetectorBase G → ThreadId → Address → M → InstId → Option (M × List DbCall)}
    {curr : ThreadId} {inst : InstId} {addr size : Address}
    (stepped : d.beforeMem alg process curr inst addr size = some (next, out)) : next.own = d.own := by
  unfold Detector.beforeMem at stepped
  split at stepped
  · obtain ⟨_, _, same⟩ := Option.bind_eq_some_iff.mp stepped
    cases same
    rfl
  · cases stepped
    rfl

theorem step_own (stepped : d.step alg e = some (next, out)) : OwnStep alg e d.own next.own := by
  have still : e.lockOp = none → next.own = d.own → OwnStep alg e d.own next.own := by
    intro idle same
    rw [same]
    exact .still idle
  have silent : d.silent (d.toDetectorBase.onHook alg e) = some (next, out) → OwnStep alg e d.own next.own := by
    intro ran
    obtain ⟨b, result, same⟩ := Option.map_eq_some_iff.mp ran
    cases same
    exact Algorithm.onHook_own result
  cases e with
  | beforeMemRead | beforeMemWrite => exact still rfl (beforeMem_own stepped)
  | beforeRealloc addr | beforeFree addr =>
    have last : (d.freeAddrRegion alg addr).1 = next := congrArg Prod.fst (Option.some.inj stepped)
    exact still rfl (last ▸ freeAddrRegion_own alg d addr)
  | imageUnload lowAddr dataStart bssStart =>
    obtain ⟨_, _, ran⟩ := Option.bind_eq_some_iff.mp stepped
    have last : ((d.freeAddrRegion alg dataStart).1.freeAddrRegion alg bssStart).1 = next :=
      congrArg Prod.fst (Option.some.inj ran)
    refine still rfl (last ▸ ?_)
    rw [freeAddrRegion_own, freeAddrRegion_own]
  | _ => exact silent stepped

/-- Change of `lockset_map_` by a hook. -/
def applyOp (map : OrdMap ThreadId Lockset) : Option LockOp → OrdMap ThreadId Lockset
  | none => map
  | some (.take curr addr) => map.insert curr ((MultiLock.locksetOf map curr).add addr)
  | some (.drop curr addr) => map.insert curr ((MultiLock.locksetOf map curr).remove addr)

/-- A class that touches its locksets in `ProcessLock` and `ProcessUnlock` only. -/
structure KeepsLocks (alg : Algorithm G M) (locksetMap : G → OrdMap ThreadId Lockset) : Prop where
  lock : ∀ {b curr addr b'}, alg.processLock b curr addr = some b' →
    locksetMap b'.own = applyOp (locksetMap b.own) (some (.take curr addr))
  unlock : ∀ {b curr addr b'}, alg.processUnlock b curr addr = some b' →
    locksetMap b'.own = applyOp (locksetMap b.own) (some (.drop curr addr))
  join : ∀ {b curr child b'}, alg.afterPthreadJoin b curr child = some b' → locksetMap b'.own = locksetMap b.own
  call : ∀ own curr target, locksetMap (alg.beforeCall own curr target) = locksetMap own

theorem KeepsLocks.step {locksetMap : G → OrdMap ThreadId Lockset} (keeps : KeepsLocks alg locksetMap)
    (stepped : d.step alg e = some (next, out)) : locksetMap next.own = applyOp (locksetMap d.own) e.lockOp := by
  have step := step_own stepped
  generalize d.own = own, next.own = own' at step ⊢
  cases step with
  | still idle =>
    rw [idle]
    rfl
  | lock op ran =>
    rw [op]
    exact keeps.lock ran
  | unlock op ran =>
    rw [op]
    exact keeps.unlock ran
  | join ran => exact keeps.join ran
  | call => exact keeps.call own _ _

/-- Processing that changes only the own members, and then perhaps clocks. -/
theorem own_of_tick {b b' : DetectorBase G} {curr : ThreadId} {tick : VectorClock → VectorClock}
    (ran : (b.currVcMap[curr]?.bind fun vc => some (b.setVc curr (tick vc))) = some b') : b'.own = b.own := by
  obtain ⟨_, _, same⟩ := Option.bind_eq_some_iff.mp ran
  cases same
  rfl

theorem afterPthreadJoin_own {b b' : DetectorBase G} {curr child : ThreadId}
    (ran : b.afterPthreadJoin curr child = some b') : b'.own = b.own := by
  obtain ⟨_, _, ran⟩ := Option.bind_eq_some_iff.mp ran
  obtain ⟨_, _, same⟩ := Option.bind_eq_some_iff.mp ran
  cases same
  rfl

end

theorem accuLock_keepsLocks : KeepsLocks accuLock id where
  lock ran := by
    cases ran
    rfl
  unlock ran := own_of_tick ran
  join ran := afterPthreadJoin_own ran
  call _ _ _ := rfl

theorem multiLock_keepsLocks : KeepsLocks multiLock id where
  lock ran := by
    cases ran
    rfl
  unlock ran := by
    cases ran
    rfl
  join ran := by
    obtain ⟨joined, before, ran⟩ := Option.bind_eq_some_iff.mp ran
    exact (own_of_tick ran).trans (afterPthreadJoin_own before)
  call _ _ _ := rfl

theorem histLock_keepsLocks : KeepsLocks histLock HistLockOwn.locksetMap where
  lock ran := by
    cases ran
    rfl
  unlock ran := congrArg HistLockOwn.locksetMap (own_of_tick ran)
  join ran := congrArg HistLockOwn.locksetMap (afterPthreadJoin_own ran)
  call _ _ _ := rfl

theorem eraser_keepsLocks : KeepsLocks eraser id where
  lock ran := by
    cases ran
    rfl
  unlock ran := by
    cases ran
    rfl
  join ran := afterPthreadJoin_own ran
  call _ _ _ := rfl

/-- The counts of unlocks and `ThreadStart` do not touch the locksets. -/
theorem histLockPlus_keepsLocks : KeepsLocks histLockPlus HistLockPlusOwn.locksetMap where
  lock ran := by
    cases ran
    rfl
  unlock ran := by
    cases ran
    rfl
  join ran := by
    obtain ⟨joined, before, ran⟩ := Option.bind_eq_some_iff.mp ran
    exact congrArg HistLockPlusOwn.locksetMap ((own_of_tick ran).trans (afterPthreadJoin_own before))
  call _ _ _ := rfl

theorem HistLockPlus.step_locks {d next : Detector HistLockPlusOwn HistLockPlusMeta} {e : Hook} {out : List DbCall}
    (stepped : HistLockPlus.step d e = some (next, out)) :
    next.own.locksetMap = applyOp d.own.locksetMap e.lockOp := by
  cases e with
  | threadStart curr parent =>
    obtain ⟨b, result, same⟩ := Option.map_eq_some_iff.mp stepped
    cases same
    obtain ⟨started, ran, same⟩ := Option.bind_eq_some_iff.mp result
    cases same
    have kept : started.own = d.own := threadStart_own ran
    have locks : started.own.locksetMap = d.own.locksetMap := congrArg HistLockPlusOwn.locksetMap kept
    exact locks
  | _ => exact histLockPlus_keepsLocks.step stepped

/-- What `ExecutionControl` delivers. No detector overrides the hook behind a trylock. -/
inductive Delivered where
  | hook (e : Hook)
  | afterPthreadMutexTryLock (curr : ThreadId) (addr : Address) (retVal : Int)

/-- The owner of each taken mutex, and how many more times it has taken it. -/
abbrev Owners := OrdMap Address (ThreadId × ℕ)

namespace Owners

/-- Taking succeeds on a free mutex and, if it is recursive, on one of the thread itself. -/
def acquire (owners : Owners) (curr : ThreadId) (addr : Address) : Option Owners :=
  match owners[addr]? with
  | none => some (owners.insert addr (curr, 0))
  | some (owner, again) => if owner = curr then some (owners.insert addr (curr, again + 1)) else none

/-- The owner gives the mutex back once. -/
def release (owners : Owners) (curr : ThreadId) (addr : Address) : Option Owners :=
  match owners[addr]? with
  | none => none
  | some (owner, again) =>
    if owner = curr then some (if again = 0 then owners.erase addr else owners.insert addr (curr, again - 1)) else none

def next (owners : Owners) : Delivered → Option Owners
  | .afterPthreadMutexTryLock curr addr retVal => if retVal = 0 then owners.acquire curr addr else some owners
  | .hook e =>
    match e.lockOp with
    | none => some owners
    | some (.take curr addr) => owners.acquire curr addr
    | some (.drop curr addr) => owners.release curr addr

/-- The locksets have the mutexes that the threads own. -/
def Exact (owners : Owners) (map : OrdMap ThreadId Lockset) : Prop :=
  ∀ (t : ThreadId) (a : Address), a ∈ MultiLock.locksetOf map t ↔ ∃ again, owners[a]? = some (t, again)

/-- A trylock succeeds on an owned mutex only, and a mutex is given back for good. -/
def Tracked (owners : Owners) : Delivered → Prop
  | .afterPthreadMutexTryLock _ addr retVal => retVal = 0 → addr ∈ owners
  | .hook e =>
    match e.lockOp with
    | some (.drop _ addr) => ∀ owner again, owners[addr]? = some (owner, again) → again = 0
    | _ => True

variable {owners owners' : Owners} {map : OrdMap ThreadId Lockset} {curr : ThreadId} {addr : Address}

theorem acquire_get (acquired : owners.acquire curr addr = some owners') (a : Address) (t : ThreadId) :
    (∃ again, owners'[a]? = some (t, again)) ↔ (∃ again, owners[a]? = some (t, again)) ∨ a = addr ∧ t = curr := by
  unfold acquire at acquired
  split at acquired
  · next free =>
    cases acquired
    rw [getElem?_insert_address]
    by_cases same : addr = a
    · subst same
      simp [free, eq_comm]
    · simp [same, Ne.symm same]
  · next owner again owned =>
    split at acquired
    · next own =>
      subst own
      cases acquired
      rw [getElem?_insert_address]
      by_cases same : addr = a
      · subst same
        simp only [if_true, Option.some.injEq, Prod.mk.injEq, owned, true_and]
        constructor
        · rintro ⟨_, rfl, _⟩
          exact Or.inr rfl
        · rintro (⟨_, rfl, _⟩ | rfl)
          · exact ⟨_, rfl, rfl⟩
          · exact ⟨_, rfl, rfl⟩
      · simp [same, Ne.symm same]
    · exact nomatch acquired

/-- Taking a mutex with the hook of a lock. -/
theorem Exact.take (exact_ : owners.Exact map) (acquired : owners.acquire curr addr = some owners') :
    owners'.Exact (applyOp map (some (.take curr addr))) := by
  intro t a
  rw [acquire_get acquired, applyOp, locksetOf_insert]
  by_cases own : curr = t
  · subst own
    rw [if_pos rfl, Lockset.mem_add, exact_ curr a]
    constructor
    · rintro (rfl | held)
      · exact Or.inr ⟨rfl, rfl⟩
      · exact Or.inl held
    · rintro (held | ⟨rfl, _⟩)
      · exact Or.inr held
      · exact Or.inl rfl
  · rw [if_neg own, exact_ t a]
    exact ⟨Or.inl, fun either => either.resolve_right fun both => own both.2.symm⟩

/-- Taking a mutex without a hook. -/
theorem Exact.untold (exact_ : owners.Exact map) (acquired : owners.acquire curr addr = some owners') :
    owners'.Exact map ↔ addr ∈ owners := by
  constructor
  · intro later
    have held := (exact_ curr addr).mp ((later curr addr).mpr ((acquire_get acquired addr curr).mpr (Or.inr ⟨rfl, rfl⟩)))
    obtain ⟨again, owned⟩ := held
    rw [Std.ExtTreeMap.mem_iff_isSome_getElem?, owned]
    rfl
  · intro taken t a
    rw [acquire_get acquired, exact_ t a]
    refine ⟨Or.inl, fun either => either.elim id ?_⟩
    rintro ⟨rfl, rfl⟩
    obtain ⟨⟨owner, again⟩, owned⟩ := Option.isSome_iff_exists.mp (Std.ExtTreeMap.mem_iff_isSome_getElem?.mp taken)
    rw [acquire, owned] at acquired
    have own : owner = t := by
      by_contra other
      simp [other] at acquired
    exact ⟨again, own ▸ owned⟩

/-- Giving a mutex back. -/
theorem Exact.drop (exact_ : owners.Exact map) (released : owners.release curr addr = some owners') :
    owners'.Exact (applyOp map (some (.drop curr addr))) ↔
      ∀ owner again, owners[addr]? = some (owner, again) → again = 0 := by
  unfold release at released
  split at released
  · exact nomatch released
  · next owner again owned =>
    split at released
    · next own =>
      subst own
      cases released
      by_cases last : again = 0
      · refine iff_of_true (fun t a => ?_) fun owner' again' owned' => ?_
        · rw [if_pos last, getElem?_erase_address, applyOp, locksetOf_insert]
          by_cases same : addr = a
          · subst same
            by_cases mine : owner = t
            · simp [mine]
            · rw [if_neg mine, exact_ t addr, owned, if_pos rfl]
              simp [mine]
          · rw [if_neg same]
            split
            · next mine => rw [Lockset.mem_remove, exact_ owner a, mine, and_iff_right same]
            · exact exact_ t a
        · cases owned.symm.trans owned'
          exact last
      · refine iff_of_false (fun later => ?_) fun once => last (once owner again owned)
        have kept := (later owner addr).mpr ⟨again - 1, by
          rw [if_neg last, getElem?_insert_address, if_pos rfl]⟩
        rw [applyOp, locksetOf_insert, if_pos rfl, Lockset.mem_remove] at kept
        exact kept.1 rfl
    · exact nomatch released

end Owners

section Runs
variable {G M : Type} {step : Detector G M → Hook → Option (Detector G M × List DbCall)}
  {locksetMap : G → OrdMap ThreadId Lockset} {s next : Detector G M × Owners} {call : Delivered} {out : List DbCall}
  {start : Detector G M} {calls : List Delivered} {n : ℕ}

/-- A delivered call, at the detector and at the mutexes. -/
def deliver (step : Detector G M → Hook → Option (Detector G M × List DbCall)) (s : Detector G M × Owners)
    (call : Delivered) : Option ((Detector G M × Owners) × List DbCall) := do
  let owners ← s.2.next call
  match call with
  | .afterPthreadMutexTryLock .. => return ((s.1, owners), [])
  | .hook e =>
    let (d, out) ← step s.1 e
    return ((d, owners), out)

/-- The locksets are exact behind every call of a run. -/
def AlwaysExact (step : Detector G M → Hook → Option (Detector G M × List DbCall))
    (locksetMap : G → OrdMap ThreadId Lockset) (start : Detector G M) (calls : List Delivered) : Prop :=
  ∀ n s, Runs.At (deliver step) (start, ∅) calls n s → s.2.Exact (locksetMap s.1.own)

def AlwaysTracked (step : Detector G M → Hook → Option (Detector G M × List DbCall)) (start : Detector G M)
    (calls : List Delivered) : Prop :=
  ∀ n s call next out, Runs.At (deliver step) (start, ∅) calls n s → calls[n]? = some call →
    deliver step s call = some (next, out) → s.2.Tracked call

/-- One call keeps the locksets exact if and only if it is tracked. -/
theorem deliver_exact (keeps : ∀ {d d' e out}, step d e = some (d', out) →
      locksetMap d'.own = applyOp (locksetMap d.own) e.lockOp)
    (exact_ : s.2.Exact (locksetMap s.1.own)) (delivered : deliver step s call = some (next, out)) :
    next.2.Exact (locksetMap next.1.own) ↔ s.2.Tracked call := by
  obtain ⟨owners, moved, delivered⟩ := Option.bind_eq_some_iff.mp delivered
  cases call with
  | afterPthreadMutexTryLock curr addr retVal =>
    cases delivered
    simp only [Owners.next] at moved
    split at moved
    · next taken => simpa only [Owners.Tracked, taken, forall_const] using exact_.untold moved
    · next refused =>
      cases moved
      exact iff_of_true exact_ fun taken => absurd taken refused
  | hook e =>
    obtain ⟨⟨d, outs⟩, stepped, same⟩ := Option.bind_eq_some_iff.mp delivered
    cases same
    rw [keeps stepped]
    simp only [Owners.next] at moved
    simp only [Owners.Tracked]
    cases op : e.lockOp with
    | none =>
      rw [op] at moved
      cases moved
      exact iff_of_true exact_ trivial
    | some op' =>
      rw [op] at moved
      cases op' with
      | take curr addr => exact iff_of_true (exact_.take moved) trivial
      | drop curr addr => exact exact_.drop moved

theorem alwaysExact_iff (keeps : ∀ {d d' e out}, step d e = some (d', out) →
      locksetMap d'.own = applyOp (locksetMap d.own) e.lockOp)
    (blank : locksetMap start.own = ∅) : AlwaysExact step locksetMap start calls ↔ AlwaysTracked step start calls := by
  constructor
  · intro exact_ n s call next out reached here delivered
    exact (deliver_exact keeps (exact_ n s reached) delivered).mp (exact_ (n + 1) next (reached.succ here delivered))
  · intro tracked n s reached
    let Inv (s : Detector G M × Owners) : Prop := s.2.Exact (locksetMap s.1.own)
    refine @Runs.At.invariant _ _ _ _ _ _ _ _ Inv (fun t a => ?_) ?_ reached
    · simp [blank, MultiLock.locksetOf]
    · intro n s call next out here at_n exact_ delivered
      exact (deliver_exact keeps exact_ delivered).mpr (tracked n s call next out at_n here delivered)

/-- The lockset lacks a mutex of the thread. -/
def lacks (step : Detector G M → Hook → Option (Detector G M × List DbCall))
    (locksetMap : G → OrdMap ThreadId Lockset) (start : Detector G M) (calls : List Delivered) (t : ThreadId)
    (a : Address) : Bool :=
  (Runs.run (deliver step) (start, ∅) calls).any fun r =>
    !(MultiLock.locksetOf (locksetMap r.1.1.own) t).isExist a && r.1.2[a]?.any (·.1 = t)

theorem not_alwaysExact {t : ThreadId} {a : Address} (test : lacks step locksetMap start calls t a = true) :
    ¬ AlwaysExact step locksetMap start calls := by
  intro exact_
  obtain ⟨⟨s, outs⟩, ran, test⟩ := (Option.any_eq_true _ _).mp test
  obtain ⟨absent, owned⟩ := Bool.and_eq_true_iff.mp test
  obtain ⟨⟨owner, again⟩, found, own⟩ := (Option.any_eq_true _ _).mp owned
  obtain rfl : owner = t := of_decide_eq_true own
  have member := (exact_ calls.length s ⟨outs, by rwa [List.take_length]⟩ owner a).mpr ⟨again, found⟩
  rw [Lockset.isExist_iff.mpr member] at absent
  exact nomatch absent

end Runs

/-- In every run of the five detectors, the locksets stay exact if and only if no trylock
takes a free mutex and no mutex is given back that its owner has taken again. -/
theorem locksets_exact_iff (unitSize : Address) (trackRacyInst : Bool) (filter : RegionFilter)
    (calls : List Delivered) :
    (AlwaysExact (Detector.step accuLock) id (start _ unitSize trackRacyInst filter ∅) calls ↔
      AlwaysTracked (Detector.step accuLock) (start _ unitSize trackRacyInst filter ∅) calls) ∧
    (AlwaysExact (Detector.step multiLock) id (start _ unitSize trackRacyInst filter ∅) calls ↔
      AlwaysTracked (Detector.step multiLock) (start _ unitSize trackRacyInst filter ∅) calls) ∧
    (AlwaysExact (Detector.step histLock) HistLockOwn.locksetMap (start _ unitSize trackRacyInst filter {}) calls ↔
      AlwaysTracked (Detector.step histLock) (start _ unitSize trackRacyInst filter {}) calls) ∧
    (AlwaysExact HistLockPlus.step HistLockPlusOwn.locksetMap (start _ unitSize trackRacyInst filter {}) calls ↔
      AlwaysTracked HistLockPlus.step (start _ unitSize trackRacyInst filter {}) calls) ∧
    (AlwaysExact (Detector.step eraser) id (start _ unitSize trackRacyInst filter ∅) calls ↔
      AlwaysTracked (Detector.step eraser) (start _ unitSize trackRacyInst filter ∅) calls) :=
  ⟨alwaysExact_iff accuLock_keepsLocks.step rfl, alwaysExact_iff multiLock_keepsLocks.step rfl,
    alwaysExact_iff histLock_keepsLocks.step rfl, alwaysExact_iff HistLockPlus.step_locks rfl,
    alwaysExact_iff eraser_keepsLocks.step rfl⟩

/-- Each of the five detectors loses the locksets somewhere in the run. -/
def NoneExact (calls : List Delivered) : Prop :=
  ¬ AlwaysExact (Detector.step accuLock) id (start _ 4 false {} ∅) calls ∧
  ¬ AlwaysExact (Detector.step multiLock) id (start _ 4 false {} ∅) calls ∧
  ¬ AlwaysExact (Detector.step histLock) HistLockOwn.locksetMap (start _ 4 false {} {}) calls ∧
  ¬ AlwaysExact HistLockPlus.step HistLockPlusOwn.locksetMap (start _ 4 false {} {}) calls ∧
  ¬ AlwaysExact (Detector.step eraser) id (start _ 4 false {} ∅) calls

theorem noneExact_of_lacks {calls : List Delivered} {t : ThreadId} {a : Address}
    (tests : (lacks (Detector.step accuLock) id (start _ 4 false {} ∅) calls t a &&
      lacks (Detector.step multiLock) id (start _ 4 false {} ∅) calls t a &&
      lacks (Detector.step histLock) HistLockOwn.locksetMap (start _ 4 false {} {}) calls t a &&
      lacks HistLockPlus.step HistLockPlusOwn.locksetMap (start _ 4 false {} {}) calls t a &&
      lacks (Detector.step eraser) id (start _ 4 false {} ∅) calls t a) = true) : NoneExact calls := by
  simp only [Bool.and_eq_true] at tests
  obtain ⟨⟨⟨⟨accu, multi⟩, hist⟩, plus⟩, erase⟩ := tests
  exact ⟨not_alwaysExact accu, not_alwaysExact multi, not_alwaysExact hist, not_alwaysExact plus,
    not_alwaysExact erase⟩

/-- A trylock that takes the mutex, and a recursive mutex given back once of twice. -/
theorem locksets_lack_mutexes :
    NoneExact [.hook (.threadStart 1 invalidThdId), .afterPthreadMutexTryLock 1 8 0] ∧
    NoneExact [.hook (.threadStart 1 invalidThdId), .hook (.afterPthreadMutexLock 1 8),
      .hook (.afterPthreadMutexLock 1 8), .hook (.beforePthreadMutexUnlock 1 8)] := by
  constructor
  · exact @noneExact_of_lacks _ 1 8 (by decide +kernel)
  · exact @noneExact_of_lacks _ 1 8 (by decide +kernel)

end Maple.Pintool
