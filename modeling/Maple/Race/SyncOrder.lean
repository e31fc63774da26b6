import Maple.Lib.Causality
import Maple.Lib.Epochs
import Maple.Race.Detector

/-! Happens-before of hook traces and its agreement with the clocks that the
detectors keep. Traces here consist of thread start and join, mutex lock and
unlock, and memory accesses; the epoch theorem is kept by every such hook. -/
namespace Maple.Race

/-- What carries an order between hooks. -/
inductive Channel where
  | thread (thdId : ThreadId)
  | mutex (addr : Address)
  deriving DecidableEq

/-- The thread that a hook is called for. -/
def Hook.thread : Hook → Option ThreadId
  | .threadStart curr _ | .afterPthreadJoin curr _ | .beforeMemRead curr .. | .beforeMemWrite curr ..
  | .beforeAtomicInst curr | .afterAtomicInst curr | .beforeCall curr _
  | .afterPthreadMutexLock curr _ | .beforePthreadMutexUnlock curr _
  | .beforePthreadCondSignal curr _ | .beforePthreadCondBroadcast curr _
  | .beforePthreadCondWait curr .. | .afterPthreadCondWait curr ..
  | .beforePthreadCondTimedwait curr .. | .afterPthreadCondTimedwait curr ..
  | .beforePthreadBarrierWait curr _ | .afterPthreadBarrierWait curr _ => some curr
  | _ => none

/-- Program order by the acting thread, fork from the parent to `ThreadStart`,
join from the child, and from an unlock to every later lock of the mutex. -/
def syncOrder : Causality.Model Hook Channel where
  acquires e c := (∃ t, e.thread = some t ∧ c = .thread t) ∨
    (∃ curr parent, e = .threadStart curr parent ∧ c = .thread parent) ∨
    (∃ curr child, e = .afterPthreadJoin curr child ∧ c = .thread child) ∨
    (∃ curr addr, e = .afterPthreadMutexLock curr addr ∧ c = .mutex addr)
  releases e c := (∃ t, e.thread = some t ∧ c = .thread t) ∨
    (∃ curr addr, e = .beforePthreadMutexUnlock curr addr ∧ c = .mutex addr)

/-- The same order without the mutex edges. -/
def forkJoinOrder : Causality.Model Hook Channel where
  acquires e c := syncOrder.acquires e c ∧ ∃ t, c = .thread t
  releases e c := syncOrder.releases e c ∧ ∃ t, c = .thread t

/-- The order has edges through the mutex. -/
def Carries (order : Causality.Model Hook Channel) (addr : Address) : Prop :=
  ∃ e, order.releases e (.mutex addr)

/-- Threads and mutexes as the hooks of a trace leave them. The holder of a recursive
mutex may lock it again, and holds it until it has released it as often. -/
structure Progress where
  started : List ThreadId := []
  joined : List ThreadId := []
  holder : OrdMap Address ThreadId := ∅
  depth : OrdMap Address ℕ := ∅

namespace Progress

/-- How often the holder of the mutex has locked it. -/
def depthOf (p : Progress) (addr : Address) : ℕ := p.depth[addr]?.getD 0

def unlock (p : Progress) (addr : Address) : Progress :=
  if p.depthOf addr ≤ 1 then { p with holder := p.holder.erase addr, depth := p.depth.erase addr }
  else { p with depth := p.depth.insert addr (p.depthOf addr - 1) }

def next (p : Progress) : Hook → Progress
  | .threadStart curr _ => { p with started := curr :: p.started }
  | .afterPthreadJoin _ child => { p with joined := child :: p.joined }
  | .afterPthreadMutexLock curr addr =>
    { p with holder := p.holder.insert addr curr, depth := p.depth.insert addr (p.depthOf addr + 1) }
  | .beforePthreadMutexUnlock _ addr => p.unlock addr
  | _ => p

@[simp] theorem started_unlock (p : Progress) (addr : Address) : (p.unlock addr).started = p.started := by
  unfold unlock
  split <;> rfl

@[simp] theorem joined_unlock (p : Progress) (addr : Address) : (p.unlock addr).joined = p.joined := by
  unfold unlock
  split <;> rfl

theorem holder_unlock (p : Progress) (addr a : Address) : (p.unlock addr).holder[a]? =
    if addr = a ∧ p.depthOf addr ≤ 1 then none else p.holder[a]? := by
  unfold unlock
  split
  · next last => simp [last]
  · next more => simp [more]

def Runs (p : Progress) (t : ThreadId) : Prop := t ∈ p.started ∧ t ∉ p.joined

/-- Thread ids are new, parents and children have been started, a joined thread
makes no more calls, and mutexes are held by one thread that alone releases them
or locks them again. -/
def Admits (p : Progress) : Hook → Prop
  | .threadStart curr parent => curr ∉ p.started ∧ curr ≠ invalidThdId ∧
      (parent = invalidThdId ∨ parent ∈ p.started)
  | .afterPthreadJoin curr child => p.Runs curr ∧ child ∈ p.started
  | .afterPthreadMutexLock curr addr =>
    p.Runs curr ∧ (p.holder[addr]? = none ∨ p.holder[addr]? = some curr)
  | .beforePthreadMutexUnlock curr addr => p.Runs curr ∧ p.holder[addr]? = some curr
  | .beforeMemRead curr .. | .beforeMemWrite curr .. => p.Runs curr
  | _ => False

@[simp] theorem runs_unlock (p : Progress) (addr : Address) (t : ThreadId) :
    (p.unlock addr).Runs t ↔ p.Runs t := by simp [Runs]

instance (p : Progress) (t : ThreadId) : Decidable (p.Runs t) := inferInstanceAs (Decidable (_ ∧ _))

instance (p : Progress) (e : Hook) : Decidable (p.Admits e) := by
  induction e using Hook.casesOn <;> simp only [Admits] <;> infer_instance

end Progress

def progressAt (tr : List Hook) (n : ℕ) : Progress := (tr.take n).foldl Progress.next {}

theorem progressAt_succ {tr : List Hook} {n : ℕ} {e : Hook} (here : tr[n]? = some e) :
    progressAt tr (n + 1) = (progressAt tr n).next e := by
  simp [progressAt, List.take_add_one, here, List.foldl_append]

/-- The debug assertions of the synchronisation hooks. -/
def Hook.Aligned (unitSize : Address) : Hook → Prop
  | .afterPthreadMutexLock _ addr | .beforePthreadMutexUnlock _ addr =>
    unitDownAlign addr unitSize = addr
  | _ => True

instance (unitSize : Address) (e : Hook) : Decidable (e.Aligned unitSize) := by
  induction e using Hook.casesOn <;> simp only [Hook.Aligned] <;> infer_instance

structure Conforms (unitSize : Address) (tr : List Hook) : Prop where
  admitted : ∀ n e, tr[n]? = some e → (progressAt tr n).Admits e
  aligned : ∀ e ∈ tr, e.Aligned unitSize

theorem conforms_iff (unitSize : Address) (tr : List Hook) : Conforms unitSize tr ↔
    (∀ n : Fin tr.length, (progressAt tr n).Admits (tr.get n)) ∧ ∀ e ∈ tr, e.Aligned unitSize := by
  constructor
  · intro conforms
    exact ⟨fun n => conforms.admitted n _ (List.getElem?_eq_getElem n.isLt), conforms.aligned⟩
  · rintro ⟨admitted, aligned⟩
    refine ⟨fun n e here => ?_, aligned⟩
    obtain ⟨bound, same⟩ := List.getElem?_eq_some_iff.mp here
    exact same ▸ admitted ⟨n, bound⟩

instance (unitSize : Address) (tr : List Hook) : Decidable (Conforms unitSize tr) :=
  decidable_of_iff _ (conforms_iff unitSize tr).symm

/-- Every unlock frees its mutex: none is made by a thread that has locked the mutex twice. -/
def UnlocksFree (tr : List Hook) : Prop := ∀ n curr addr,
  tr[n]? = some (.beforePthreadMutexUnlock curr addr) → (progressAt tr n).depthOf addr ≤ 1

/-- The same of one hook. -/
def Progress.UnlockFrees (p : Progress) : Hook → Prop
  | .beforePthreadMutexUnlock _ addr => p.depthOf addr ≤ 1
  | _ => True

instance (p : Progress) (e : Hook) : Decidable (p.UnlockFrees e) := by
  induction e using Hook.casesOn <;> simp only [Progress.UnlockFrees] <;> infer_instance

theorem unlocksFree_iff (tr : List Hook) :
    UnlocksFree tr ↔ ∀ n : Fin tr.length, (progressAt tr n).UnlockFrees (tr.get n) := by
  constructor
  · intro frees n
    have here := List.getElem?_eq_getElem n.isLt
    rw [List.get_eq_getElem]
    generalize tr[n.1] = e at here
    cases e with
    | beforePthreadMutexUnlock curr addr => exact frees n curr addr here
    | _ => exact trivial
  · intro frees n curr addr here
    obtain ⟨bound, same⟩ := List.getElem?_eq_some_iff.mp here
    have now := frees ⟨n, bound⟩
    rw [List.get_eq_getElem, same] at now
    exact now

instance (tr : List Hook) : Decidable (UnlocksFree tr) := decidable_of_iff _ (unlocksFree_iff tr).symm

/-- Clock component of a channel in the detector state. -/
def DetectorBase.clockOf {G : Type} (b : DetectorBase G) : Channel → ThreadId → ℕ
  | .thread t, u => (b.currVcMap[t]?.getD {}).getClock u
  | .mutex a, u => (b.mutexMetaTable[a]?.getD {}).vc.getClock u

/-- The two counters of `Detector1`. -/
def DetectorBase.Counted {G : Type} (b : DetectorBase G) (p : Progress) : Prop :=
  b.threadStartC = p.started.length ∧ b.threadJoinC = p.joined.length

abbrev Stamps := ℕ → Option (ThreadId × ℕ)

def DetectorBase.view {G : Type} (b : DetectorBase G) (order : Causality.Model Hook Channel)
    (tr : List Hook) (n : ℕ) (epoch : Stamps) : Epochs.View ThreadId Channel where
  vc := b.clockOf
  knows := order.Known tr n
  epoch := epoch
  born t := t ∈ (progressAt tr n).started
  ended t := t ∈ (progressAt tr n).joined

/-- What the synchronisation state satisfies after `n` hooks of a conforming trace. -/
structure SyncInv {G : Type} (order : Causality.Model Hook Channel) (tr : List Hook) (n : ℕ)
    (b : DetectorBase G) (epoch : Stamps) : Prop where
  exact : (b.view order tr n epoch).Exact Channel.thread
  past : ∀ {i e}, epoch i = some e → i < n
  present : ∀ {t}, t ∈ (progressAt tr n).started → ∃ vc, b.currVcMap[t]? = some vc
  held : ∀ {a t}, (progressAt tr n).holder[a]? = some t → t ∈ (progressAt tr n).started ∧
    (Carries order a → ∀ u, b.clockOf (.mutex a) u ≤ b.clockOf (.thread t) u)
  quiet : ∀ t : ThreadId, b.atomicMap[t]?.getD false = false
  valid : invalidThdId ∉ (progressAt tr n).started
  counted : b.Counted (progressAt tr n)

theorem thread_injective : Function.Injective Channel.thread := fun _ _ same => Channel.thread.inj same

section Sync
variable {G : Type} {tr : List Hook} {n : ℕ} {e : Hook} {b : DetectorBase G} {epoch : Stamps}

/-- Knowledge of stamped events after one more hook. -/
theorem known_step {order : Causality.Model Hook Channel} (here : tr[n]? = some e) {c : Channel}
    {i : ℕ} (earlier : i ≠ n) : order.Known tr (n + 1) c i ↔
      order.Known tr n c i ∨ order.releases e c ∧ ∃ d, order.acquires e d ∧ order.Known tr n d i := by
  simp [Causality.known_succ here, earlier]

theorem clockOf_setVc (t u : ThreadId) (vc : VectorClock) (c : Channel) :
    (b.setVc t vc).clockOf c u = if c = .thread t then vc.getClock u else b.clockOf c u := by
  cases c with
  | thread x =>
    simp only [DetectorBase.clockOf, DetectorBase.setVc, getElem?_insert_thread, Channel.thread.injEq,
      eq_comm (a := t)]
    split <;> rfl
  | mutex a => simp [DetectorBase.clockOf, DetectorBase.setVc]

theorem clockOf_of_vc {t : ThreadId} {vc : VectorClock} (found : b.currVcMap[t]? = some vc)
    (u : ThreadId) : b.clockOf (.thread t) u = vc.getClock u := by
  simp [DetectorBase.clockOf, found]

/-- Settings that no synchronisation hook touches. -/
structure DetectorBase.SameSettings (b b' : DetectorBase G) : Prop where
  filter : b'.filter = b.filter
  unitSize : b'.unitSize = b.unitSize
  trackRacyInst : b'.trackRacyInst = b.trackRacyInst

theorem DetectorBase.SameSettings.trans {b₁ b₂ b₃ : DetectorBase G} (first : b₁.SameSettings b₂)
    (second : b₂.SameSettings b₃) : b₁.SameSettings b₃ :=
  ⟨second.filter.trans first.filter, second.unitSize.trans first.unitSize,
    second.trackRacyInst.trans first.trackRacyInst⟩

variable {order : Causality.Model Hook Channel}

/-- Nothing is ordered before a thread that has not started. -/
theorem SyncInv.unknown_of_fresh (inv : SyncInv order tr n b epoch) {t : ThreadId}
    (fresh : t ∉ (progressAt tr n).started) {i : ℕ} {e : ThreadId × ℕ} (stamp : epoch i = some e) :
    ¬ order.Known tr n (.thread t) i := by
  intro known
  have bound := (inv.exact.exact stamp (.thread t)).mp known
  have blank : b.clockOf (.thread t) e.1 = 0 := inv.exact.blank fresh e.1
  have positive := (inv.exact.stamped stamp).2.1
  simp only [DetectorBase.view, blank] at bound
  omega

theorem SyncInv.ne_of_stamped (inv : SyncInv order tr n b epoch) {i : ℕ} {e : ThreadId × ℕ}
    (stamp : epoch i = some e) : i ≠ n := Nat.ne_of_lt (inv.past stamp)

theorem DetectorBase.clockOf_enroll (curr : ThreadId) (c : Channel) (u : ThreadId) :
    (b.enroll curr).clockOf c u = b.clockOf c u := by cases c <;> rfl

theorem DetectorBase.threadStart_main (b : DetectorBase G) (curr : ThreadId) :
    b.threadStart curr invalidThdId =
      some ((b.setVc curr (({} : VectorClock).increment curr)).enroll curr) := by
  simp [threadStart]

theorem DetectorBase.threadStart_child (b : DetectorBase G) (curr : ThreadId) {parent : ThreadId}
    {vc : VectorClock} (child : parent ≠ invalidThdId) (found : b.currVcMap[parent]? = some vc) :
    b.threadStart curr parent = some (((b.setVc parent (vc.increment parent)).setVc curr
      ((({} : VectorClock).increment curr).join vc)).enroll curr) := by
  simp [threadStart, child, found]

theorem quiet_insert (quiet : ∀ t : ThreadId, b.atomicMap[t]?.getD false = false) (curr t : ThreadId) :
    (b.atomicMap.insert curr false)[t]?.getD false = false := by
  rw [getElem?_insert_thread]
  split
  · rfl
  · exact quiet t

theorem present_setVc {started : List ThreadId}
    (present : ∀ {t}, t ∈ started → ∃ vc, b.currVcMap[t]? = some vc) (curr : ThreadId)
    (vc : VectorClock) {t : ThreadId} (member : t = curr ∨ t ∈ started) :
    ∃ vc', (b.setVc curr vc).currVcMap[t]? = some vc' := by
  simp only [DetectorBase.setVc, getElem?_insert_thread]
  split
  · exact ⟨vc, rfl⟩
  · next other => exact present (member.resolve_left (fun same => other same.symm))

/-- What is known after a thread start: the new thread knows what its parent knew. -/
theorem SyncInv.known_start (inv : SyncInv order tr n b epoch) {curr parent : ThreadId}
    (here : tr[n]? = some (.threadStart curr parent)) (fresh : curr ∉ (progressAt tr n).started)
    (acquires : ∀ c, order.acquires (.threadStart curr parent) c ↔
      c = .thread curr ∨ c = .thread parent)
    (releases : ∀ c, order.releases (.threadStart curr parent) c ↔ c = .thread curr)
    {i : ℕ} {e : ThreadId × ℕ} (stamp : epoch i = some e) (c : Channel) :
    order.Known tr (n + 1) c i ↔
      order.Known tr n c i ∨ c = .thread curr ∧ order.Known tr n (.thread parent) i := by
  have unknown := inv.unknown_of_fresh fresh stamp
  simp only [known_step here (inv.ne_of_stamped stamp), releases, acquires]
  constructor
  · rintro (old | ⟨rfl, d, rfl | rfl, old⟩)
    · exact Or.inl old
    · exact absurd old unknown
    · exact Or.inr ⟨rfl, old⟩
  · rintro (old | ⟨rfl, old⟩)
    · exact Or.inl old
    · exact Or.inr ⟨rfl, .thread parent, Or.inr rfl, old⟩

/-- A thread start keeps the invariant as soon as the clocks are exact and no other
thread loses any. -/
theorem SyncInv.enrolled (inv : SyncInv order tr n b epoch) {curr parent : ThreadId}
    (here : tr[n]? = some (.threadStart curr parent)) (fresh : curr ∉ (progressAt tr n).started)
    (valid : curr ≠ invalidThdId) {b' : DetectorBase G}
    (exact : (b'.view order tr (n + 1) epoch).Exact Channel.thread)
    (present : ∀ t, t = curr ∨ t ∈ (progressAt tr n).started → ∃ vc, b'.currVcMap[t]? = some vc)
    (grows : ∀ t ≠ curr, ∀ u, b.clockOf (.thread t) u ≤ b'.clockOf (.thread t) u)
    (mutexes : ∀ a u, b'.clockOf (.mutex a) u = b.clockOf (.mutex a) u)
    (atomic : b'.atomicMap = b.atomicMap.insert curr false)
    (counts : b'.threadStartC = b.threadStartC + 1 ∧ b'.threadJoinC = b.threadJoinC) :
    SyncInv order tr (n + 1) b' epoch := by
  have next := progressAt_succ here
  have started : (progressAt tr (n + 1)).started = curr :: (progressAt tr n).started := by
    rw [next]; rfl
  refine ⟨exact, fun stamp => Nat.lt_succ_of_lt (inv.past stamp), ?_, ?_, ?_, ?_, ?_⟩
  · intro t member
    rw [started, List.mem_cons] at member
    exact present t member
  · intro a t holds
    rw [next] at holds
    obtain ⟨member, below⟩ := inv.held holds
    have other : t ≠ curr := fun same => fresh (same ▸ member)
    refine ⟨started ▸ List.mem_cons_of_mem _ member, fun carries u => ?_⟩
    rw [mutexes]
    exact (below carries u).trans (grows t other u)
  · rw [atomic]
    exact quiet_insert inv.quiet curr
  · rw [started, List.mem_cons]
    exact fun member => member.elim (fun same => valid same.symm) inv.valid
  · rw [DetectorBase.Counted, counts.1, counts.2, inv.counted.1, inv.counted.2, next]
    simp [Progress.next]

theorem getClock_first (curr u : ThreadId) :
    (({} : VectorClock).increment curr).getClock u = if u = curr then 1 else 0 := by
  simp only [VectorClock.getClock_increment, VectorClock.getClock_empty, eq_comm (a := curr)]

/-- The main thread starts with its own tick. -/
theorem SyncInv.startMain (inv : SyncInv order tr n b epoch) {curr : ThreadId}
    (here : tr[n]? = some (.threadStart curr invalidThdId)) (fresh : curr ∉ (progressAt tr n).started)
    (valid : curr ≠ invalidThdId)
    (acquires : ∀ c, order.acquires (.threadStart curr invalidThdId) c ↔
      c = .thread curr ∨ c = .thread invalidThdId)
    (releases : ∀ c, order.releases (.threadStart curr invalidThdId) c ↔ c = .thread curr) :
    SyncInv order tr (n + 1) ((b.setVc curr (({} : VectorClock).increment curr)).enroll curr) epoch := by
  have born := inv.exact.birth thread_injective (t := curr) fresh
  have clocks : ∀ c u, ((b.setVc curr (({} : VectorClock).increment curr)).enroll curr).clockOf c u =
      ((b.view order tr n epoch).birth .thread curr).vc c u := by
    intro c u
    rw [DetectorBase.clockOf_enroll, clockOf_setVc, Epochs.View.birth_vc, getClock_first]
    rfl
  refine inv.enrolled here fresh valid (born.congr ⟨clocks, fun _ => rfl, ?_, ?_, ?_⟩)
    (fun t member => present_setVc inv.present curr _ member) ?_ ?_ rfl ⟨rfl, rfl⟩
  · intro i t s stamp c
    have noParent := inv.unknown_of_fresh inv.valid stamp
    simp only [DetectorBase.view, Epochs.View.birth, inv.known_start here fresh acquires releases stamp,
      noParent, and_false, or_false]
  · intro t
    simp only [DetectorBase.view, Epochs.View.birth, progressAt_succ here, Progress.next, List.mem_cons]
  · intro t
    simp only [DetectorBase.view, Epochs.View.birth, progressAt_succ here, Progress.next]
  · intro t other u
    simp [DetectorBase.clockOf_enroll, clockOf_setVc, other]
  · intro a u
    simp [DetectorBase.clockOf_enroll, clockOf_setVc]

/-- Any other thread starts with its own tick and its parent's clock; the parent
enters a new epoch. -/
theorem SyncInv.startChild (inv : SyncInv order tr n b epoch) {curr parent : ThreadId} {vc : VectorClock}
    (here : tr[n]? = some (.threadStart curr parent)) (fresh : curr ∉ (progressAt tr n).started)
    (valid : curr ≠ invalidThdId) (parentStarted : parent ∈ (progressAt tr n).started)
    (found : b.currVcMap[parent]? = some vc)
    (acquires : ∀ c, order.acquires (.threadStart curr parent) c ↔
      c = .thread curr ∨ c = .thread parent)
    (releases : ∀ c, order.releases (.threadStart curr parent) c ↔ c = .thread curr) :
    SyncInv order tr (n + 1) (((b.setVc parent (vc.increment parent)).setVc curr
      ((({} : VectorClock).increment curr).join vc)).enroll curr) epoch := by
  have born := inv.exact.birth thread_injective (t := curr) fresh
  have apart : curr ≠ parent := fun same => fresh (same ▸ parentStarted)
  have otherThread : (Channel.thread parent = Channel.thread curr) = False := by
    simpa using apart.symm
  have published := born.publish thread_injective (t := parent) (h := .thread curr)
    (Or.inr parentStarted) (fun same => apart (thread_injective same))
    (fun u same => Or.inl (thread_injective same).symm)
  have parentClock : ∀ u, b.clockOf (.thread parent) u = vc.getClock u := clockOf_of_vc found
  have own := getClock_first curr
  have clocks : ∀ c u, (((b.setVc parent (vc.increment parent)).setVc curr
      ((({} : VectorClock).increment curr).join vc)).enroll curr).clockOf c u =
      (((b.view order tr n epoch).birth .thread curr).publish .thread parent (.thread curr)).vc c u := by
    intro c u
    rw [DetectorBase.clockOf_enroll, clockOf_setVc, clockOf_setVc,
      Epochs.View.publish_vc _ _ _ _ _ _ (fun same => apart (thread_injective same))]
    simp only [Epochs.View.birth_vc, DetectorBase.view, otherThread, if_true, if_false,
      VectorClock.getClock_join, own, VectorClock.getClock_increment, parentClock,
      eq_comm (a := parent)]
    split
    · rfl
    · split
      · split <;> simp_all
      · simp_all
  refine inv.enrolled here fresh valid (published.congr ⟨clocks, fun _ => rfl, ?_, ?_, ?_⟩) ?_ ?_ ?_
    rfl ⟨rfl, rfl⟩
  · intro i t s stamp c
    simp only [DetectorBase.view, Epochs.View.birth, Epochs.View.publish, Epochs.View.learn,
      Epochs.View.tick, inv.known_start here fresh acquires releases stamp]
  · intro t
    simp only [DetectorBase.view, Epochs.View.birth, Epochs.View.publish, Epochs.View.learn,
      Epochs.View.tick, progressAt_succ here, Progress.next, List.mem_cons]
  · intro t
    simp only [DetectorBase.view, Epochs.View.birth, Epochs.View.publish, Epochs.View.learn,
      Epochs.View.tick, progressAt_succ here, Progress.next]
  · intro t member
    refine present_setVc ?_ curr _ member
    exact fun old => present_setVc inv.present parent _ (Or.inr old)
  · intro t other u
    simp only [DetectorBase.clockOf_enroll, clockOf_setVc, Channel.thread.injEq, other, if_false]
    split
    · next same =>
        subst same
        rw [parentClock, VectorClock.getClock_increment]
        split
        · next same => subst same; omega
        · exact le_rfl
    · exact le_rfl
  · intro a u
    simp [DetectorBase.clockOf_enroll, clockOf_setVc]

theorem SyncInv.threadStart (inv : SyncInv order tr n b epoch) {curr parent : ThreadId}
    (here : tr[n]? = some (.threadStart curr parent))
    (admitted : (progressAt tr n).Admits (.threadStart curr parent))
    (acquires : ∀ c, order.acquires (.threadStart curr parent) c ↔
      c = .thread curr ∨ c = .thread parent)
    (releases : ∀ c, order.releases (.threadStart curr parent) c ↔ c = .thread curr) :
    ∃ b', b.threadStart curr parent = some b' ∧ SyncInv order tr (n + 1) b' epoch ∧
      b.SameSettings b' ∧ b'.own = b.own := by
  obtain ⟨fresh, valid, origin⟩ := admitted
  by_cases main : parent = invalidThdId
  · subst main
    exact ⟨_, b.threadStart_main curr, inv.startMain here fresh valid acquires releases, ⟨rfl, rfl, rfl⟩, rfl⟩
  · have parentStarted := origin.resolve_left main
    obtain ⟨vc, found⟩ := inv.present parentStarted
    exact ⟨_, b.threadStart_child curr main found,
      inv.startChild here fresh valid parentStarted found acquires releases, ⟨rfl, rfl, rfl⟩, rfl⟩

theorem known_of_local {i : ℕ} {t : ThreadId} (here : tr[n]? = some e)
    (acquires : ∀ c, order.acquires e c ↔ c = .thread t)
    (releases : ∀ c, order.releases e c ↔ c = .thread t) (earlier : i ≠ n) (c : Channel) :
    order.Known tr (n + 1) c i ↔ order.Known tr n c i := by
  simp only [known_step here earlier, releases, acquires]
  constructor
  · rintro (old | ⟨rfl, d, rfl, old⟩) <;> exact old
  · exact Or.inl

/-- A hook that neither starts a thread nor locks keeps the invariant as soon as
the clocks stay exact and no thread loses any. -/
theorem SyncInv.extend (inv : SyncInv order tr n b epoch) (here : tr[n]? = some e)
    {b' : DetectorBase G} {epoch' : Stamps}
    (started : ((progressAt tr n).next e).started = (progressAt tr n).started)
    (holder : ((progressAt tr n).next e).holder = (progressAt tr n).holder)
    (exact : (b'.view order tr (n + 1) epoch').Exact Channel.thread)
    (past : ∀ {i e}, epoch' i = some e → i ≤ n)
    (present : ∀ {t : ThreadId} {vc}, b.currVcMap[t]? = some vc → ∃ vc', b'.currVcMap[t]? = some vc')
    (grows : ∀ t u, b.clockOf (.thread t) u ≤ b'.clockOf (.thread t) u)
    (mutexes : ∀ a u, b'.clockOf (.mutex a) u = b.clockOf (.mutex a) u)
    (atomic : b'.atomicMap = b.atomicMap) (counted : b'.Counted ((progressAt tr n).next e)) :
    SyncInv order tr (n + 1) b' epoch' := by
  have next := progressAt_succ here
  refine ⟨exact, fun stamp => Nat.lt_succ_of_le (past stamp), ?_, ?_, ?_, ?_, next ▸ counted⟩
  · intro t member
    rw [next, started] at member
    obtain ⟨vc, found⟩ := inv.present member
    exact present found
  · intro a t holds
    rw [next, holder] at holds
    obtain ⟨member, below⟩ := inv.held holds
    refine ⟨by rw [next, started]; exact member, fun carries u => ?_⟩
    rw [mutexes]
    exact (below carries u).trans (grows t u)
  · rw [atomic]
    exact inv.quiet
  · rw [next, started]
    exact inv.valid

/-- A hook that concerns its own thread only, such as an access that is not looked at. -/
theorem SyncInv.local (inv : SyncInv order tr n b epoch) (here : tr[n]? = some e) {t : ThreadId}
    (acquires : ∀ c, order.acquires e c ↔ c = .thread t)
    (releases : ∀ c, order.releases e c ↔ c = .thread t)
    (progress : (progressAt tr n).next e = progressAt tr n) :
    SyncInv order tr (n + 1) b epoch := by
  have next := progressAt_succ here
  refine inv.extend here (by rw [progress]) (by rw [progress]) (inv.exact.congr ?_)
    (fun stamp => (inv.past stamp).le) (fun found => ⟨_, found⟩) (fun _ _ => le_rfl)
    (fun _ _ => rfl) rfl (by rw [progress]; exact inv.counted)
  refine ⟨fun _ _ => rfl, fun _ => rfl, ?_, ?_, ?_⟩
  · intro i u s stamp c
    exact known_of_local here acquires releases (inv.ne_of_stamped stamp) c
  · intro u
    simp only [DetectorBase.view, next, progress]
  · intro u
    simp only [DetectorBase.view, next, progress]

/-- A stamped access of a running thread. -/
theorem SyncInv.access (inv : SyncInv order tr n b epoch) (here : tr[n]? = some e) {t : ThreadId}
    (runs : (progressAt tr n).Runs t)
    (acquires : ∀ c, order.acquires e c ↔ c = .thread t)
    (releases : ∀ c, order.releases e c ↔ c = .thread t)
    (progress : (progressAt tr n).next e = progressAt tr n) :
    SyncInv order tr (n + 1) b
      (Function.update epoch n (some (t, b.clockOf (.thread t) t))) := by
  have next := progressAt_succ here
  have unknown : ∀ c, ¬ order.Known tr n c n := fun c known =>
    absurd (Causality.known_lt known) (lt_irrefl n)
  have marked := inv.exact.mark (n := n) (t := t) runs.1 runs.2 unknown
  refine inv.extend here (by rw [progress]) (by rw [progress]) (marked.congr ?_) ?_
    (fun found => ⟨_, found⟩) (fun _ _ => le_rfl) (fun _ _ => rfl) rfl (by rw [progress]; exact inv.counted)
  · refine ⟨fun _ _ => rfl, fun _ => rfl, ?_, ?_, ?_⟩
    · intro i u s stamp c
      simp only [DetectorBase.view, Epochs.View.mark, Causality.known_succ here, releases, acquires]
      constructor
      · rintro (old | ⟨rfl, rfl | ⟨d, rfl, old⟩⟩)
        · exact Or.inl old
        · exact Or.inr ⟨rfl, rfl⟩
        · exact Or.inl old
      · rintro (old | ⟨rfl, rfl⟩)
        · exact Or.inl old
        · exact Or.inr ⟨rfl, Or.inl rfl⟩
    · intro u
      simp only [DetectorBase.view, Epochs.View.mark, next, progress]
    · intro u
      simp only [DetectorBase.view, Epochs.View.mark, next, progress]
  · intro i e stamp
    by_cases same : i = n
    · exact same.le
    · rw [Function.update_of_ne same] at stamp
      exact (inv.past stamp).le

/-- The joiner takes in the clock of the child, which makes no more calls. -/
theorem SyncInv.join (inv : SyncInv order tr n b epoch) {curr child : ThreadId}
    (here : tr[n]? = some (.afterPthreadJoin curr child))
    (admitted : (progressAt tr n).Admits (.afterPthreadJoin curr child))
    (acquires : ∀ c, order.acquires (.afterPthreadJoin curr child) c ↔
      c = .thread curr ∨ c = .thread child)
    (releases : ∀ c, order.releases (.afterPthreadJoin curr child) c ↔ c = .thread curr) :
    ∃ b', b.afterPthreadJoin curr child = some b' ∧ SyncInv order tr (n + 1) b' epoch ∧
      b.SameSettings b' ∧ b'.own = b.own := by
  obtain ⟨runs, childStarted⟩ := admitted
  have next := progressAt_succ here
  obtain ⟨currVc, currFound⟩ := inv.present runs.1
  obtain ⟨childVc, childFound⟩ := inv.present childStarted
  have result : b.afterPthreadJoin curr child =
      some { b.setVc curr (currVc.join childVc) with threadJoinC := b.threadJoinC + 1 } := by
    simp [DetectorBase.afterPthreadJoin, currFound, childFound]
  refine ⟨_, result, ?_, ⟨rfl, rfl, rfl⟩, rfl⟩
  have clocks : ∀ c u, ({ b.setVc curr (currVc.join childVc) with
        threadJoinC := b.threadJoinC + 1 } : DetectorBase G).clockOf c u =
      if c = .thread curr then max (b.clockOf (.thread curr) u) (b.clockOf (.thread child) u)
      else b.clockOf c u := by
    intro c u
    rw [clockOf_of_vc currFound, clockOf_of_vc childFound, ← VectorClock.getClock_join,
      ← clockOf_setVc]
    cases c <;> rfl
  have learned := (inv.exact.finish (t := child)).learn (h := .thread curr) (k := .thread child)
    (fun t same => thread_injective same ▸ runs.1) (fun t same => Or.inl (thread_injective same).symm)
  refine inv.extend here rfl rfl (learned.congr ?_) (fun stamp => (inv.past stamp).le) ?_ ?_ ?_ rfl
    ⟨inv.counted.1, by simp [Progress.next, inv.counted.2]⟩
  · refine ⟨fun c u => ?_, fun _ => rfl, ?_, ?_, ?_⟩
    · rw [Epochs.View.learn_vc]
      exact clocks c u
    · intro i u s stamp c
      simp only [DetectorBase.view, Epochs.View.learn, Epochs.View.finish,
        known_step here (inv.ne_of_stamped stamp), releases, acquires]
      constructor
      · rintro (old | ⟨rfl, d, rfl | rfl, old⟩)
        · exact Or.inl old
        · exact Or.inl old
        · exact Or.inr ⟨rfl, old⟩
      · rintro (old | ⟨rfl, old⟩)
        · exact Or.inl old
        · exact Or.inr ⟨rfl, .thread child, Or.inr rfl, old⟩
    · intro u
      simp only [DetectorBase.view, Epochs.View.learn, Epochs.View.finish, next, Progress.next]
    · intro u
      simp only [DetectorBase.view, Epochs.View.learn, Epochs.View.finish, next, Progress.next,
        List.mem_cons]
  · intro t vc found
    simp only [DetectorBase.setVc, getElem?_insert_thread]
    split
    · exact ⟨_, rfl⟩
    · exact ⟨vc, found⟩
  · intro t u
    rw [clocks]
    split
    · next same => rw [thread_injective same]; exact le_max_left _ _
    · exact le_rfl
  · intro a u
    rw [clocks]
    simp

/-- A running thread may enter a new epoch at any time. -/
theorem SyncInv.tick (inv : SyncInv order tr n b epoch) {t : ThreadId} {vc : VectorClock}
    (started : t ∈ (progressAt tr n).started) (found : b.currVcMap[t]? = some vc) :
    SyncInv order tr n (b.setVc t (vc.increment t)) epoch := by
  have clocks : ∀ c u, (b.setVc t (vc.increment t)).clockOf c u =
      if c = .thread t ∧ u = t then b.clockOf (.thread t) t + 1 else b.clockOf c u := by
    intro c u
    rw [clockOf_setVc]
    by_cases same : c = .thread t
    · subst same
      simp only [if_true, true_and, VectorClock.getClock_increment, clockOf_of_vc found,
        eq_comm (a := t)]
    · simp [same]
  refine ⟨(inv.exact.tick thread_injective started).congr ⟨fun c u => ?_, fun _ => rfl,
    fun _ _ => Iff.rfl, fun _ => Iff.rfl, fun _ => Iff.rfl⟩, inv.past, ?_, ?_, inv.quiet, inv.valid,
    inv.counted⟩
  · rw [Epochs.View.tick_vc]
    exact clocks c u
  · intro u member
    exact present_setVc inv.present t _ (Or.inr member)
  · intro a u holds
    obtain ⟨member, below⟩ := inv.held holds
    refine ⟨member, fun carries x => (below carries x).trans_eq' ?_ |>.trans ?_⟩
    · simp [clocks]
    · rw [clocks]
      split
      · next same =>
          obtain ⟨same, rfl⟩ := same
          rw [thread_injective same]
          exact Nat.le_succ _
      · exact le_rfl

theorem clockOf_ensure (addr : Address) (c : Channel) (u : ThreadId) :
    ({ b with mutexMetaTable := ensureMeta {} b.mutexMetaTable addr } : DetectorBase G).clockOf c u =
      b.clockOf c u := by
  cases c <;> simp [DetectorBase.clockOf]

/-- A lock or unlock that leaves the clocks alone, for orders without edges through
the mutex. -/
theorem SyncInv.holding (inv : SyncInv order tr n b epoch) (here : tr[n]? = some e) {t : ThreadId}
    {addr : Address} (acquires : ∀ c, order.acquires e c ↔ c = .thread t)
    (releases : ∀ c, order.releases e c ↔ c = .thread t) (uncarried : ¬ Carries order addr)
    {b' : DetectorBase G} (clocks : b'.currVcMap = b.currVcMap)
    (mutexes : ∀ a u, b'.clockOf (.mutex a) u = b.clockOf (.mutex a) u)
    (atomic : b'.atomicMap = b.atomicMap) (counts : b'.threadStartC = b.threadStartC ∧
      b'.threadJoinC = b.threadJoinC)
    (threads : ((progressAt tr n).next e).started = (progressAt tr n).started ∧
      ((progressAt tr n).next e).joined = (progressAt tr n).joined)
    (holder : ∀ {a u}, ((progressAt tr n).next e).holder[a]? = some u →
      (progressAt tr n).holder[a]? = some u ∨ a = addr ∧ u ∈ (progressAt tr n).started) :
    SyncInv order tr (n + 1) b' epoch := by
  have next := progressAt_succ here
  have same : ∀ c u, b'.clockOf c u = b.clockOf c u := by
    intro c u
    cases c with
    | thread t => simp only [DetectorBase.clockOf, clocks]
    | mutex a => exact mutexes a u
  refine ⟨inv.exact.congr ⟨same, fun _ => rfl, ?_, ?_, ?_⟩,
    fun stamp => Nat.lt_succ_of_lt (inv.past stamp), ?_, ?_, ?_, ?_, ?_⟩
  · intro i t s stamp c
    exact known_of_local here acquires releases (inv.ne_of_stamped stamp) c
  · intro u
    simp only [DetectorBase.view, next, threads.1]
  · intro u
    simp only [DetectorBase.view, next, threads.2]
  · intro u member
    rw [next, threads.1] at member
    rw [clocks]
    exact inv.present member
  · intro a u holds
    rw [next] at holds ⊢
    rw [threads.1]
    rcases holder holds with before | ⟨rfl, member⟩
    · obtain ⟨member, below⟩ := inv.held before
      exact ⟨member, fun carries x => by rw [same, same]; exact below carries x⟩
    · exact ⟨member, fun carries => absurd carries uncarried⟩
  · rw [atomic]
    exact inv.quiet
  · rw [next, threads.1]
    exact inv.valid
  · rw [DetectorBase.Counted, next, counts.1, counts.2, threads.1, threads.2]
    exact inv.counted

theorem SyncInv.lock (inv : SyncInv order tr n b epoch) {curr : ThreadId} {addr : Address}
    (here : tr[n]? = some (.afterPthreadMutexLock curr addr))
    (admitted : (progressAt tr n).Admits (.afterPthreadMutexLock curr addr))
    (acquires : ∀ c, order.acquires (.afterPthreadMutexLock curr addr) c ↔
      c = .thread curr ∨ c = .mutex addr)
    (releases : ∀ c, order.releases (.afterPthreadMutexLock curr addr) c ↔ c = .thread curr) :
    ∃ b', ({ b with mutexMetaTable := ensureMeta {} b.mutexMetaTable addr } : DetectorBase G).processLock
        curr addr = some b' ∧ SyncInv order tr (n + 1) b' epoch ∧ b.SameSettings b' ∧ b'.own = b.own := by
  obtain ⟨runs, free⟩ := admitted
  have next := progressAt_succ here
  obtain ⟨currVc, currFound⟩ := inv.present runs.1
  let ensured : DetectorBase G := { b with mutexMetaTable := ensureMeta {} b.mutexMetaTable addr }
  let mutexVc := (ensured.mutexMetaTable[addr]?.getD {}).vc
  have result : ensured.processLock curr addr = some (ensured.setVc curr (currVc.join mutexVc)) := by
    simp [DetectorBase.processLock, ensured, mutexVc, currFound]
  refine ⟨_, result, ?_, ⟨rfl, rfl, rfl⟩, rfl⟩
  have clocks : ∀ c u, (ensured.setVc curr (currVc.join mutexVc)).clockOf c u =
      if c = .thread curr then max (b.clockOf (.thread curr) u) (b.clockOf (.mutex addr) u)
      else b.clockOf c u := by
    intro c u
    have mutex : b.clockOf (.mutex addr) u = mutexVc.getClock u :=
      (clockOf_ensure addr (.mutex addr) u).symm
    rw [clockOf_setVc, VectorClock.getClock_join, clockOf_of_vc currFound, mutex]
    split
    · rfl
    · exact clockOf_ensure addr c u
  have learned := inv.exact.learn (h := .thread curr) (k := .mutex addr)
    (fun t same => thread_injective same ▸ runs.1) (fun t same => nomatch same)
  have mutexes : ∀ a u, (ensured.setVc curr (currVc.join mutexVc)).clockOf (.mutex a) u =
      b.clockOf (.mutex a) u := by
    intro a u
    rw [clocks]
    simp
  have grows : ∀ t u, b.clockOf (.thread t) u ≤
      (ensured.setVc curr (currVc.join mutexVc)).clockOf (.thread t) u := by
    intro t u
    rw [clocks]
    split
    · next same => rw [thread_injective same]; exact le_max_left _ _
    · exact le_rfl
  refine ⟨learned.congr ⟨fun c u => ?_, fun _ => rfl, ?_, ?_, ?_⟩,
    fun stamp => Nat.lt_succ_of_lt (inv.past stamp), ?_, ?_, inv.quiet, ?_,
    next ▸ inv.counted⟩
  · rw [Epochs.View.learn_vc]
    exact clocks c u
  · intro i u s stamp c
    simp only [DetectorBase.view, Epochs.View.learn, known_step here (inv.ne_of_stamped stamp),
      releases, acquires]
    constructor
    · rintro (old | ⟨rfl, d, rfl | rfl, old⟩)
      · exact Or.inl old
      · exact Or.inl old
      · exact Or.inr ⟨rfl, old⟩
    · rintro (old | ⟨rfl, old⟩)
      · exact Or.inl old
      · exact Or.inr ⟨rfl, .mutex addr, Or.inr rfl, old⟩
  · intro u
    simp only [DetectorBase.view, Epochs.View.learn, next, Progress.next]
  · intro u
    simp only [DetectorBase.view, Epochs.View.learn, next, Progress.next]
  · intro u member
    rw [next] at member
    exact present_setVc (b := ensured) inv.present curr _ (Or.inr member)
  · intro a u holds
    rw [next] at holds ⊢
    simp only [Progress.next, getElem?_insert_address] at holds ⊢
    split at holds
    · next same =>
        cases holds
        subst same
        refine ⟨runs.1, fun _ x => ?_⟩
        rw [clocks, clocks, if_neg (by simp), if_pos rfl]
        exact le_max_right _ _
    · obtain ⟨member, below⟩ := inv.held holds
      refine ⟨member, fun carries x => ?_⟩
      rw [mutexes]
      exact (below carries x).trans (grows u x)
  · rw [next]
    exact inv.valid

/-- The mutex takes over the clock of its holder, which had taken in whatever
the mutex carried before. -/
theorem SyncInv.unlock (inv : SyncInv order tr n b epoch) {curr : ThreadId} {addr : Address}
    (here : tr[n]? = some (.beforePthreadMutexUnlock curr addr))
    (admitted : (progressAt tr n).Admits (.beforePthreadMutexUnlock curr addr))
    (acquires : ∀ c, order.acquires (.beforePthreadMutexUnlock curr addr) c ↔ c = .thread curr)
    (releases : ∀ c, order.releases (.beforePthreadMutexUnlock curr addr) c ↔
      c = .thread curr ∨ c = .mutex addr) :
    ∃ b', ({ b with mutexMetaTable := ensureMeta {} b.mutexMetaTable addr } : DetectorBase G).processUnlock
        curr addr = some b' ∧ SyncInv order tr (n + 1) b' epoch ∧ b.SameSettings b' ∧ b'.own = b.own := by
  obtain ⟨runs, holds⟩ := admitted
  have next := progressAt_succ here
  have started : (progressAt tr (n + 1)).started = (progressAt tr n).started := by
    rw [next, Progress.next, Progress.started_unlock]
  have joined : (progressAt tr (n + 1)).joined = (progressAt tr n).joined := by
    rw [next, Progress.next, Progress.joined_unlock]
  obtain ⟨currVc, currFound⟩ := inv.present runs.1
  have carried := (inv.held holds).2 ⟨_, (releases (.mutex addr)).mpr (Or.inr rfl)⟩
  let ensured : DetectorBase G := { b with mutexMetaTable := ensureMeta {} b.mutexMetaTable addr }
  let released : DetectorBase G := { ensured.setVc curr (currVc.increment curr) with
    mutexMetaTable := ensured.mutexMetaTable.insert addr ⟨currVc⟩ }
  have result : ensured.processUnlock curr addr = some released := by
    simp [DetectorBase.processUnlock, ensured, released, currFound]
  refine ⟨released, result, ?_, ⟨rfl, rfl, rfl⟩, rfl⟩
  have threads : ∀ t u, released.clockOf (.thread t) u =
      if t = curr ∧ u = curr then b.clockOf (.thread curr) curr + 1 else b.clockOf (.thread t) u := by
    intro t u
    have set := clockOf_setVc (b := b) curr u (currVc.increment curr) (.thread t)
    rw [show released.clockOf (.thread t) u =
      (b.setVc curr (currVc.increment curr)).clockOf (.thread t) u from rfl, set]
    by_cases same : t = curr
    · subst same
      simp only [if_true, true_and, VectorClock.getClock_increment, clockOf_of_vc currFound,
        eq_comm (a := t)]
    · simp [same]
  have mutexes : ∀ a u, released.clockOf (.mutex a) u =
      if a = addr then b.clockOf (.thread curr) u else b.clockOf (.mutex a) u := by
    intro a u
    simp only [DetectorBase.clockOf, released, getElem?_insert_address, eq_comm (a := addr)]
    split
    · simp [currFound]
    · rw [show ensured.mutexMetaTable = ensureMeta {} b.mutexMetaTable addr from rfl, getD_ensureMeta]
  have published := inv.exact.publish thread_injective (t := curr) (h := .mutex addr) runs.1
    (fun same => nomatch same) (fun u same => nomatch same)
  refine ⟨published.congr ⟨fun c u => ?_, fun _ => rfl, ?_, ?_, ?_⟩,
    fun stamp => Nat.lt_succ_of_lt (inv.past stamp), ?_, ?_, inv.quiet, ?_, ?_⟩
  · rw [Epochs.View.publish_vc _ _ _ (Channel.mutex addr) _ _ (by simp)]
    cases c with
    | thread t => simpa [DetectorBase.view] using threads t u
    | mutex a =>
      simp only [DetectorBase.view, mutexes, Channel.mutex.injEq, reduceCtorEq, false_and, if_false,
        max_eq_right (carried u)]
  · intro i u s stamp c
    simp only [DetectorBase.view, Epochs.View.publish, Epochs.View.learn, Epochs.View.tick,
      known_step here (inv.ne_of_stamped stamp), releases, acquires]
    constructor
    · rintro (old | ⟨rfl | rfl, d, rfl, old⟩)
      · exact Or.inl old
      · exact Or.inl old
      · exact Or.inr ⟨rfl, old⟩
    · rintro (old | ⟨rfl, old⟩)
      · exact Or.inl old
      · exact Or.inr ⟨Or.inr rfl, _, rfl, old⟩
  · intro u
    simp only [DetectorBase.view, Epochs.View.publish, Epochs.View.learn, Epochs.View.tick, started]
  · intro u
    simp only [DetectorBase.view, Epochs.View.publish, Epochs.View.learn, Epochs.View.tick, joined]
  · intro u member
    rw [started] at member
    exact present_setVc (b := ensured) inv.present curr _ (Or.inr member)
  · intro a u stillHeld
    have kept : (progressAt tr n).holder[a]? = some u := by
      rw [next, Progress.next, Progress.holder_unlock] at stillHeld
      split at stillHeld
      · contradiction
      · exact stillHeld
    have grows : ∀ x, b.clockOf (.thread u) x ≤ released.clockOf (.thread u) x := by
      intro x
      rw [threads]
      split
      · next same =>
          obtain ⟨rfl, rfl⟩ := same
          exact Nat.le_succ _
      · exact le_rfl
    obtain ⟨member, below⟩ := inv.held kept
    refine ⟨started ▸ member, fun carries x => ?_⟩
    rw [mutexes]
    split
    · next same =>
        -- an inner unlock: the mutex takes the clock of the thread that keeps it
        subst same
        obtain rfl : u = curr := Option.some.inj (kept.symm.trans holds)
        exact grows x
    · exact (below carries x).trans (grows x)
  · rw [started]
    exact inv.valid
  · rw [DetectorBase.Counted, started, joined]
    exact inv.counted

end Sync

end Maple.Race
