import Maple.Systematic.ControllerObjects

/-! A thread is disabled exactly while it waits for something. Each operation changes one
table, and enables or disables the threads that wait there. -/
namespace Maple.Systematic

/-- What the call of a thread has to wait for, if it is registered. -/
inductive Awaited where
  | mutex (a : Address)
  | cond (a : Address) (timed : Bool)
  | barrier (a : Address)
  | join (child : ThreadId)
  deriving DecidableEq

def Call.awaits : Call → Option Awaited
  | mutexLock a => some (.mutex a)
  | condWait a => some (.cond a false)
  | condTimedwait a => some (.cond a true)
  | barrierWait a => some (.barrier a)
  | threadJoin child => some (.join child)
  | _ => none

namespace Controller

def awaits (c : Controller) (t : ThreadId) : Option Awaited := c.actionTable[t]?.bind (·.call.awaits)

/-- Whether a thread that waits has to go on waiting. -/
def blocks (c : Controller) (t : ThreadId) : Awaited → Bool
  | .mutex a => (c.mutexInfo a).holder.isSome
  | .cond a _ => (c.condInfo a).waitMap[t]?.any WaitInfo.asleep
  | .barrier a => decide (t ∈ (c.barrierInfo a).waitQueue)
  | .join child => !(c.joinInfo child).exit

variable {c c' : Controller} {w w' : ThreadId → Option Awaited} {round round' : ThreadId → ℕ}
  {arrivals arrivals' : Address → BarrierLog} {alive : ThreadId → Bool} {self t : ThreadId} {a : Address}

/-- The tables hold the threads that wait, where `w` says what each of them waits for. -/
structure Tables (w : ThreadId → Option Awaited) (round : ThreadId → ℕ) (arrivals : Address → BarrierLog)
    (c : Controller) : Prop where
  mutex : ∀ a, MutexOk (fun t => w t = some (.mutex a)) (c.mutexInfo a)
  cond : ∀ a t timed, (c.condInfo a).timed? t = some timed ↔ w t = some (.cond a timed)
  barrier : ∀ a, BarrierOk (fun t => w t = some (.barrier a)) round (arrivals a) (c.barrierInfo a)
  join : ∀ child, JoinOk (fun t => w t = some (.join child)) (c.joinInfo child)

/-- Threads that wait are alive, and `enable_table_` is exact. -/
structure Exact (alive : ThreadId → Bool) (w : ThreadId → Option Awaited) (c : Controller) : Prop where
  living : ∀ t, w t ≠ none → alive t = true
  enabled : ∀ t, c.enableTable t = (alive t && !(w t).any (c.blocks t))

theorem Exact.waiting (exact : Exact alive w c) {o : Awaited} (waits : w t = some o) :
    c.enableTable t = !c.blocks t o := by
  rw [exact.enabled, exact.living t (by simp [waits]), waits]
  rfl

theorem Exact.condSync (exact : Exact alive w c) (tables : Tables w round arrivals c) (a : Address) :
    CondSync (c.condInfo a) c.enableTable := by
  intro t info found
  have waits := (tables.cond a t info.timed).mp (by rw [CondInfo.timed?, found]; rfl)
  rw [exact.waiting waits]
  simp [blocks, found]

/-- An operation of one thread, on what is marked. -/
theorem Exact.step (exact : Exact alive w c) (marked : Awaited → Prop) (self : ThreadId) (running : alive self = true)
    (own : c'.enableTable self = !(w' self).any (c'.blocks self)) (kept : ∀ t, t ≠ self → w' t = w t)
    (inside : ∀ t o, t ≠ self → w t = some o → marked o → c'.enableTable t = !c'.blocks t o)
    (outside : ∀ t, t ≠ self → (∀ o, w t = some o → ¬ marked o) → c'.enableTable t = c.enableTable t)
    (same : ∀ t o, ¬ marked o → c'.blocks t o = c.blocks t o) : Exact alive w' c' := by
  refine ⟨fun t waits => ?_, fun t => ?_⟩
  · by_cases here : t = self
    · rw [here, running]
    · exact exact.living t (kept t here ▸ waits)
  · by_cases here : t = self
    · rw [here, running, own, Bool.true_and]
    · rw [kept t here]
      cases waits : w t with
      | none =>
        rw [outside t here (by simp [waits]), exact.enabled, waits]
        rfl
      | some o =>
        have living := exact.living t (by simp [waits])
        by_cases mark : marked o
        · rw [inside t o here waits mark, living]
          rfl
        · rw [outside t here (by simp [waits, mark]), exact.waiting waits, living, Option.any_some, same t o mark]
          rfl

section Setters

/-- The threads that wait for something else wait there as before. -/
theorem waits_congr {o : Awaited} (kept : ∀ t, w' t = some o ↔ w t = some o) :
    (fun t => w' t = some o) = fun t => w t = some o := funext fun t => propext (kept t)

theorem Tables.setMutex (tables : Tables w round arrivals c) {info : MutexInfo × EnableTable}
    (kept : ∀ t o, o ≠ .mutex a → (w' t = some o ↔ w t = some o))
    (ok : MutexOk (fun t => w' t = some (.mutex a)) info.1) : Tables w' round arrivals (c.setMutex a info) where
  mutex b := by
    by_cases same : b = a
    · subst same
      simpa [Controller.setMutex] using ok
    · rw [waits_congr fun t => kept t (.mutex b) (by simpa using same)]
      simpa [Controller.setMutex, same] using tables.mutex b
  cond b t timed := (tables.cond b t timed).trans (kept t _ (by simp)).symm
  barrier b := by
    rw [waits_congr fun t => kept t (.barrier b) (by simp)]
    exact tables.barrier b
  join child := by
    rw [waits_congr fun t => kept t (.join child) (by simp)]
    exact tables.join child

theorem Tables.setCond (tables : Tables w round arrivals c) {info : CondInfo × EnableTable}
    (kept : ∀ t o, (∀ timed, o ≠ .cond a timed) → (w' t = some o ↔ w t = some o))
    (ok : ∀ t timed, info.1.timed? t = some timed ↔ w' t = some (.cond a timed)) :
    Tables w' round arrivals (c.setCond a info) where
  mutex b := by
    rw [waits_congr fun t => kept t (.mutex b) (by simp)]
    exact tables.mutex b
  cond b t timed := by
    by_cases same : b = a
    · subst same
      simpa [Controller.setCond] using ok t timed
    · rw [kept t _ (by simp [same])]
      simpa [Controller.setCond, same] using tables.cond b t timed
  barrier b := by
    rw [waits_congr fun t => kept t (.barrier b) (by simp)]
    exact tables.barrier b
  join child := by
    rw [waits_congr fun t => kept t (.join child) (by simp)]
    exact tables.join child

theorem Tables.setJoin (tables : Tables w round arrivals c) {child : ThreadId} {info : JoinInfo × EnableTable}
    (kept : ∀ t o, o ≠ .join child → (w' t = some o ↔ w t = some o))
    (ok : JoinOk (fun t => w' t = some (.join child)) info.1) : Tables w' round arrivals (c.setJoin child info) where
  mutex b := by
    rw [waits_congr fun t => kept t (.mutex b) (by simp)]
    exact tables.mutex b
  cond b t timed := (tables.cond b t timed).trans (kept t _ (by simp)).symm
  barrier b := by
    rw [waits_congr fun t => kept t (.barrier b) (by simp)]
    exact tables.barrier b
  join u := by
    by_cases same : u = child
    · subst same
      simpa [Controller.setJoin] using ok
    · rw [waits_congr fun t => kept t (.join u) (by simpa using same)]
      simpa [Controller.setJoin, same] using tables.join u

theorem Tables.setBarrier (tables : Tables w round arrivals c) {info : BarrierInfo × EnableTable}
    (kept : ∀ t o, o ≠ .barrier a → (w' t = some o ↔ w t = some o)) (logs : ∀ b, b ≠ a → arrivals' b = arrivals b)
    (rounds : ∀ t b, b ≠ a → w t = some (.barrier b) → round' t = round t)
    (ok : BarrierOk (fun t => w' t = some (.barrier a)) round' (arrivals' a) info.1) :
    Tables w' round' arrivals' (c.setBarrier a info) where
  mutex b := by
    rw [waits_congr fun t => kept t (.mutex b) (by simp)]
    exact tables.mutex b
  cond b t timed := (tables.cond b t timed).trans (kept t _ (by simp)).symm
  barrier b := by
    by_cases same : b = a
    · subst same
      simpa [Controller.setBarrier] using ok
    · rw [waits_congr fun t => kept t (.barrier b) (by simpa using same), logs b same]
      simpa [Controller.setBarrier, same] using (tables.barrier b).congr fun t => rounds t b same
  join child := by
    rw [waits_congr fun t => kept t (.join child) (by simp)]
    exact tables.join child

theorem blocks_setMutex (c : Controller) (a : Address) (info : MutexInfo × EnableTable) (t : ThreadId) {o : Awaited}
    (other : o ≠ .mutex a) : (c.setMutex a info).blocks t o = c.blocks t o := by
  cases o with
  | mutex b =>
    have apart : b ≠ a := by simpa using other
    simp [blocks, setMutex, apart]
  | _ => rfl

theorem blocks_setCond (c : Controller) (a : Address) (info : CondInfo × EnableTable) (t : ThreadId) {o : Awaited}
    (other : ∀ timed, o ≠ .cond a timed) : (c.setCond a info).blocks t o = c.blocks t o := by
  cases o with
  | cond b timed =>
    have apart : b ≠ a := by simpa using other timed
    simp [blocks, setCond, apart]
  | _ => rfl

theorem blocks_setBarrier (c : Controller) (a : Address) (info : BarrierInfo × EnableTable) (t : ThreadId) {o : Awaited}
    (other : o ≠ .barrier a) : (c.setBarrier a info).blocks t o = c.blocks t o := by
  cases o with
  | barrier b =>
    have apart : b ≠ a := by simpa using other
    simp [blocks, setBarrier, apart]
  | _ => rfl

theorem blocks_setJoin (c : Controller) (child : ThreadId) (info : JoinInfo × EnableTable) (t : ThreadId) {o : Awaited}
    (other : o ≠ .join child) : (c.setJoin child info).blocks t o = c.blocks t o := by
  cases o with
  | join u =>
    have apart : u ≠ child := by simpa using other
    simp [blocks, setJoin, apart]
  | _ => rfl

end Setters

/-- A waiter that the table knows is enabled unless it is asleep. -/
theorem blocks_of_condSync {info : CondInfo × EnableTable} (sync : CondSync info.1 info.2) {timed : Bool}
    (waits : info.1.timed? t = some timed) :
    (c.setCond a info).enableTable t = !(c.setCond a info).blocks t (.cond a timed) := by
  obtain ⟨wait, found, _⟩ := Option.map_eq_some_iff.mp waits
  refine (sync t wait found).trans ?_
  simp [setCond, Controller.blocks, found]

section Before

/-- A thread begins to wait. -/
theorem waits_begin (w : ThreadId → Option Awaited) (self : ThreadId) (o : Awaited) :
    (fun t => Function.update w self (some o) t = some o) = fun t => w t = some o ∨ t = self := by
  funext t
  by_cases here : t = self
  · simp [here]
  · simp [here]

theorem begin_other (fresh : w self = none) {o o' : Awaited} (other : o' ≠ o) (t : ThreadId) :
    Function.update w self (some o) t = some o' ↔ w t = some o' := by
  by_cases here : t = self
  · simp [here, fresh, Ne.symm other]
  · simp [here]

theorem before_mutexLock (tables : Tables w round arrivals c) (exact : Exact alive w c) (fresh : w self = none)
    (running : alive self = true) (other : (c.mutexInfo a).holder ≠ some self) :
    ∃ m enable, (c.mutexInfo a).startLock c.enableTable self = some (m, enable) ∧ m.holder = (c.mutexInfo a).holder ∧
      Tables (Function.update w self (some (.mutex a))) round arrivals (c.setMutex a (m, enable)) ∧
      Exact alive (Function.update w self (some (.mutex a))) (c.setMutex a (m, enable)) := by
  have enabled : c.enableTable self = true := by simp [exact.enabled, fresh, running]
  obtain ⟨m, enable, ran, ok, holder, sets⟩ := (tables.mutex a).startLock (by simp [fresh]) other enabled
  refine ⟨m, enable, ran, holder, tables.setMutex (fun t o other => begin_other fresh other t)
      (waits_begin w self _ ▸ ok), exact.step (· = .mutex a) self running ?_
        (fun t apart => Function.update_of_ne apart _ _) (fun t o apart waits mark => ?_)
        (fun t apart _ => sets.outside t apart) fun t o other => c.blocks_setMutex a _ t other⟩
  · simp [setMutex, blocks, sets.inside self rfl, holder]
  · subst mark
    refine (sets.outside t apart).trans ((exact.waiting waits).trans ?_)
    simp [setMutex, blocks, holder]

theorem before_cond (tables : Tables w round arrivals c) (exact : Exact alive w c) (fresh : w self = none)
    (running : alive self = true) (a : Address) (timed : Bool) :
    Tables (Function.update w self (some (.cond a timed))) round arrivals
        (c.setCond a ((c.condInfo a).startWait c.enableTable self timed)) ∧
      Exact alive (Function.update w self (some (.cond a timed)))
        (c.setCond a ((c.condInfo a).startWait c.enableTable self timed)) := by
  have enabled : c.enableTable self = true := by simp [exact.enabled, fresh, running]
  have absent : (c.condInfo a).timed? self = none := by
    rw [Option.eq_none_iff_forall_ne_some]
    intro other waits
    simpa [fresh] using (tables.cond a self other).mp waits
  obtain ⟨lookup, sync, others⟩ := (exact.condSync tables a).startWait absent enabled timed
  refine ⟨tables.setCond (fun t o other => begin_other fresh (other timed) t) fun t other => ?_,
    exact.step (∃ timed, · = .cond a timed) self running ?_ (fun t apart => Function.update_of_ne apart _ _)
      (fun t o apart waits mark => ?_) (fun t apart _ => others t apart) fun t o other => ?_⟩
  · rw [lookup]
    by_cases here : t = self
    · simp [here]
    · simpa [here] using tables.cond a t other
  · rw [Function.update_self, Option.any_some]
    exact blocks_of_condSync sync (by rw [lookup, if_pos rfl])
  · obtain ⟨other, rfl⟩ := mark
    exact blocks_of_condSync sync ((lookup t).trans ((if_neg apart).trans ((tables.cond a t other).mpr waits)))
  · exact c.blocks_setCond a _ t fun timed same => other ⟨timed, same⟩

theorem before_threadJoin (tables : Tables w round arrivals c) (exact : Exact alive w c) (fresh : w self = none)
    (running : alive self = true) (child : ThreadId) :
    Tables (Function.update w self (some (.join child))) round arrivals
        (c.setJoin child ((c.joinInfo child).startJoin c.enableTable self)) ∧
      Exact alive (Function.update w self (some (.join child)))
        (c.setJoin child ((c.joinInfo child).startJoin c.enableTable self)) ∧
      ((c.joinInfo child).startJoin c.enableTable self).1.exit = (c.joinInfo child).exit := by
  have enabled : c.enableTable self = true := by simp [exact.enabled, fresh, running]
  obtain ⟨ok, exit, sets⟩ := (tables.join child).startJoin (by simp [fresh]) enabled
  refine ⟨tables.setJoin (fun t o other => begin_other fresh other t) (waits_begin w self _ ▸ ok),
    exact.step (· = .join child) self running ?_ (fun t apart => Function.update_of_ne apart _ _)
      (fun t o apart waits mark => ?_) (fun t apart _ => sets.outside t apart)
      fun t o other => c.blocks_setJoin child _ t other, exit⟩
  · simp [setJoin, blocks, sets.inside self rfl, exit]
  · subst mark
    refine (sets.outside t apart).trans ((exact.waiting waits).trans ?_)
    simp [setJoin, blocks, exit]

theorem before_barrierWait (tables : Tables w round arrivals c) (exact : Exact alive w c) (fresh : w self = none)
    (running : alive self = true) (counted : (c.barrierInfo a).count ≠ none) :
    ∃ b enable, (c.barrierInfo a).barrierWait c.enableTable self = some (b, enable) ∧
      Tables (Function.update w self (some (.barrier a))) (Function.update round self (arrivals a).current)
        (Function.update arrivals a (arrivals a).arrive) (c.setBarrier a (b, enable)) ∧
      Exact alive (Function.update w self (some (.barrier a))) (c.setBarrier a (b, enable)) := by
  have enabled : c.enableTable self = true := by simp [exact.enabled, fresh, running]
  obtain ⟨k, counted⟩ := Option.ne_none_iff_exists'.mp counted
  obtain ⟨b, enable, ran, _, ok, sync, others⟩ := (tables.barrier a).barrierWait counted (by simp [fresh]) enabled
    fun t waits => exact.waiting waits
  refine ⟨b, enable, ran, tables.setBarrier (fun t o other => begin_other fresh other t)
      (fun b other => Function.update_of_ne other _ _) (fun t b other waits => ?_) ?_,
    exact.step (· = .barrier a) self running ?_ (fun t apart => Function.update_of_ne apart _ _)
      (fun t o apart waits mark => ?_) (fun t apart unmarked => others t ?_)
      fun t o other => c.blocks_setBarrier a _ t other⟩
  · refine Function.update_of_ne ?_ _ _
    rintro rfl
    simp [fresh] at waits
  · rw [waits_begin, Function.update_self]
    exact ok
  · simp [setBarrier, blocks, sync self (Or.inr rfl)]
  · subst mark
    refine (sync t (Or.inl waits)).trans ?_
    simp [setBarrier, blocks]
  · rintro (waits | here)
    · exact unmarked _ waits rfl
    · exact apart here

end Before

section After

/-- A thread that waits no longer. -/
theorem waits_end (w : ThreadId → Option Awaited) (self : ThreadId) (o : Awaited) :
    (fun t => Function.update w self none t = some o) = fun t => w t = some o ∧ t ≠ self := by
  funext t
  by_cases here : t = self
  · simp [here]
  · simp [here]

theorem end_other {o o' : Awaited} (own : w self = some o) (other : o' ≠ o) (t : ThreadId) :
    Function.update w self none t = some o' ↔ w t = some o' := by
  by_cases here : t = self
  · simp [here, own, Ne.symm other]
  · simp [here]

theorem after_mutexLock (tables : Tables w round arrivals c) (exact : Exact alive w c) (own : w self = some (.mutex a))
    (enabled : c.enableTable self = true) : (c.mutexInfo a).holder = none ∧
      ∃ m enable, (c.mutexInfo a).mutexLock c.enableTable self = some (m, enable) ∧ m.holder = some self ∧
        Tables (Function.update w self none) round arrivals (c.setMutex a (m, enable)) ∧
        Exact alive (Function.update w self none) (c.setMutex a (m, enable)) := by
  have free : (c.mutexInfo a).holder = none := by simpa [blocks, enabled] using exact.waiting own
  have ready (t : ThreadId) (waits : w t = some (.mutex a)) : c.enableTable t = true := by
    simp [exact.waiting waits, blocks, free]
  obtain ⟨m, enable, ran, ok, holder, sets⟩ := @MutexOk.mutexLock _ _ _ self (tables.mutex a) free ready
  refine ⟨free, m, enable, ran, holder, tables.setMutex (fun t o other => end_other own other t)
      (waits_end w self _ ▸ ok), exact.step (· = .mutex a) self (exact.living self (by simp [own])) ?_
        (fun t apart => Function.update_of_ne apart _ _) (fun t o apart waits mark => ?_)
        (fun t apart unmarked => ?_) fun t o other => c.blocks_setMutex a _ t other⟩
  · simpa [setMutex] using (sets.outside self (by simp)).trans enabled
  · subst mark
    refine (sets.inside t ⟨waits, apart⟩).trans ?_
    simp [setMutex, blocks, holder]
  · exact sets.outside t fun inside => unmarked _ inside.1 rfl

theorem after_grab (tables : Tables w round arrivals c) (exact : Exact alive w c) (own : w self = none)
    (running : alive self = true) (free : (c.mutexInfo a).holder = none) :
    ∃ m enable, (c.mutexInfo a).grab c.enableTable self = some (m, enable) ∧ m.holder = some self ∧
      Tables w round arrivals (c.setMutex a (m, enable)) ∧ Exact alive w (c.setMutex a (m, enable)) := by
  have ready (t : ThreadId) (waits : w t = some (.mutex a)) : c.enableTable t = true := by
    simp [exact.waiting waits, blocks, free]
  obtain ⟨m, enable, ran, ok, holder, sets⟩ := @MutexOk.grab _ _ _ self (tables.mutex a) free ready
  refine ⟨m, enable, ran, holder, tables.setMutex (fun t o _ => Iff.rfl) ok,
    exact.step (· = .mutex a) self running ?_ (fun t _ => rfl) (fun t o apart waits mark => ?_)
      (fun t apart unmarked => sets.outside t fun waits => unmarked _ waits rfl)
      fun t o other => c.blocks_setMutex a _ t other⟩
  · rw [own]
    exact (sets.outside self (by simp [own])).trans (by simp [exact.enabled, running, own])
  · subst mark
    refine (sets.inside t waits).trans ?_
    simp [setMutex, blocks, holder]

theorem after_mutexUnlock (tables : Tables w round arrivals c) (exact : Exact alive w c) (own : w self = none)
    (running : alive self = true) (held : (c.mutexInfo a).holder = some self) :
    ∃ m enable, (c.mutexInfo a).mutexUnlock c.enableTable self = some (m, enable) ∧ m.holder = none ∧
      Tables w round arrivals (c.setMutex a (m, enable)) ∧ Exact alive w (c.setMutex a (m, enable)) := by
  have asleep (t : ThreadId) (waits : w t = some (.mutex a)) : c.enableTable t = false := by
    simp [exact.waiting waits, blocks, held]
  obtain ⟨m, enable, ran, ok, holder, sets⟩ := (tables.mutex a).mutexUnlock held asleep
  refine ⟨m, enable, ran, holder, tables.setMutex (fun t o _ => Iff.rfl) ok,
    exact.step (· = .mutex a) self running ?_ (fun t _ => rfl) (fun t o apart waits mark => ?_)
      (fun t apart unmarked => sets.outside t fun waits => unmarked _ waits rfl)
      fun t o other => c.blocks_setMutex a _ t other⟩
  · rw [own]
    exact (sets.outside self (by simp [own])).trans (by simp [exact.enabled, running, own])
  · subst mark
    refine (sets.inside t waits).trans ?_
    simp [setMutex, blocks, holder]

/-- A thread that does not wait has changed a condition variable. -/
theorem after_wakeUp (tables : Tables w round arrivals c) (exact : Exact alive w c) (own : w self = none)
    (running : alive self = true) {info : CondInfo × EnableTable} (timed? : info.1.timed? = (c.condInfo a).timed?)
    (sync : CondSync info.1 info.2) (others : ∀ t, (c.condInfo a).timed? t = none → info.2 t = c.enableTable t) :
    Tables w round arrivals (c.setCond a info) ∧ Exact alive w (c.setCond a info) := by
  have absent {t : ThreadId} (away : ∀ timed, w t ≠ some (.cond a timed)) : (c.condInfo a).timed? t = none := by
    rw [Option.eq_none_iff_forall_ne_some]
    exact fun timed waits => away timed ((tables.cond a t timed).mp waits)
  refine ⟨tables.setCond (fun t o _ => Iff.rfl) fun t timed => by rw [timed?]; exact tables.cond a t timed,
    exact.step (∃ timed, · = .cond a timed) self running ?_ (fun t _ => rfl) (fun t o apart waits mark => ?_)
      (fun t apart unmarked => others t (absent fun timed waits => unmarked _ waits ⟨timed, rfl⟩))
      fun t o other => c.blocks_setCond a info t fun timed same => other ⟨timed, same⟩⟩
  · rw [own]
    exact (others self (absent (by simp [own]))).trans (by simp [exact.enabled, running, own])
  · obtain ⟨timed, rfl⟩ := mark
    exact blocks_of_condSync sync (by rw [timed?]; exact (tables.cond a t timed).mpr waits)

theorem after_wait (tables : Tables w round arrivals c) (exact : Exact alive w c) {timed : Bool}
    (own : w self = some (.cond a timed)) (enabled : c.enableTable self = true) {info : CondInfo × EnableTable}
    (left : CondLeft (c.condInfo a) c.enableTable self info.1 info.2) :
    Tables (Function.update w self none) round arrivals (c.setCond a info) ∧
      Exact alive (Function.update w self none) (c.setCond a info) := by
  refine ⟨tables.setCond (fun t o other => end_other own (other timed) t) fun t timed => ?_,
    exact.step (∃ timed, · = .cond a timed) self (exact.living self (by simp [own])) ?_
      (fun t apart => Function.update_of_ne apart _ _) (fun t o apart waits mark => ?_) (fun t apart unmarked => ?_)
      fun t o other => c.blocks_setCond a info t fun timed same => other ⟨timed, same⟩⟩
  · rw [left.timed?]
    by_cases here : t = self
    · simp [here]
    · simpa [here] using tables.cond a t timed
  · simpa [setCond] using (left.others self (Or.inr rfl)).trans enabled
  · obtain ⟨other, rfl⟩ := mark
    exact blocks_of_condSync left.sync ((left.timed? t).trans ((if_neg apart).trans ((tables.cond a t other).mpr waits)))
  · refine left.others t (Or.inl ?_)
    rw [Option.eq_none_iff_forall_ne_some]
    exact fun timed waits => unmarked _ ((tables.cond a t timed).mp waits) ⟨timed, rfl⟩

/-- Nothing else changes when a wait is over. -/
theorem Exact.leave (exact : Exact alive w c) {o : Awaited} (own : w self = some o) (enabled : c.enableTable self = true) :
    Exact alive (Function.update w self none) c :=
  exact.step (fun _ => False) self (exact.living self (by simp [own])) (by simpa using enabled)
    (fun t apart => Function.update_of_ne apart _ _) (fun _ _ _ _ mark => mark.elim) (fun _ _ _ => rfl) fun _ _ _ => rfl

theorem after_barrierWait (tables : Tables w round arrivals c) (exact : Exact alive w c)
    (own : w self = some (.barrier a)) (enabled : c.enableTable self = true) :
    Tables (Function.update w self none) round arrivals c := by
  have away : self ∉ (c.barrierInfo a).waitQueue := by simpa [blocks, enabled] using exact.waiting own
  have same : c.setBarrier a (c.barrierInfo a, c.enableTable) = c := by simp [setBarrier]
  rw [← same]
  refine tables.setBarrier (fun t o other => end_other own other t) (fun _ _ => rfl) (fun _ _ _ _ => rfl) ?_
  rw [waits_end]
  exact (tables.barrier a).leave away

theorem after_threadJoin {child : ThreadId} (tables : Tables w round arrivals c) (exact : Exact alive w c)
    (own : w self = some (.join child)) (enabled : c.enableTable self = true) :
    Tables (Function.update w self none) round arrivals c := by
  have exit : (c.joinInfo child).exit = true := by simpa [blocks, enabled] using exact.waiting own
  have same : c.setJoin child (c.joinInfo child, c.enableTable) = c := by simp [setJoin]
  rw [← same]
  refine tables.setJoin (fun t o other => end_other own other t) ?_
  rw [waits_end]
  exact ⟨(tables.join child).distinct, fun t => by simp [(tables.join child).queue, exit]⟩

theorem after_barrierInit (tables : Tables w round arrivals c) (exact : Exact alive w c)
    (empty : (c.barrierInfo a).waitQueue = []) (count : BitVec 32) :
    Tables w round (Function.update arrivals a ((arrivals a).init count.toNat))
        (c.setBarrier a ({ c.barrierInfo a with count := some count }, c.enableTable)) ∧
      Exact alive w (c.setBarrier a ({ c.barrierInfo a with count := some count }, c.enableTable)) := by
  refine ⟨tables.setBarrier (fun t o _ => Iff.rfl) (fun b other => Function.update_of_ne other _ _)
    (fun _ _ _ _ => rfl) ?_, exact.living, fun t => ?_⟩
  · rw [Function.update_self]
    exact (tables.barrier a).barrierInit empty count
  · have same : (c.setBarrier a ({ c.barrierInfo a with count := some count }, c.enableTable)).blocks t = c.blocks t := by
      funext o
      by_cases here : o = .barrier a
      · simp [here, blocks, setBarrier]
      · exact c.blocks_setBarrier a _ t here
    rw [same]
    exact exact.enabled t

end After

section Lives

/-- The joiners of a thread go on. -/
theorem exit_notify (tables : Tables w round arrivals c) (exact : Exact alive w c) (own : w self = none)
    (running : alive self = true) (running' : (c.joinInfo self).exit = false) :
    ∃ j enable, (c.joinInfo self).notify c.enableTable = some (j, enable) ∧ j.exit = true ∧
      Tables w round arrivals (c.setJoin self (j, enable)) ∧ Exact alive w (c.setJoin self (j, enable)) := by
  have asleep (t : ThreadId) (waits : w t = some (.join self)) : c.enableTable t = false := by
    simp [exact.waiting waits, blocks, running']
  obtain ⟨j, enable, ran, ok, exit, sets⟩ := (tables.join self).notify running' asleep
  refine ⟨j, enable, ran, exit, tables.setJoin (fun t o _ => Iff.rfl) ok,
    exact.step (· = .join self) self running ?_ (fun t _ => rfl) (fun t o apart waits mark => ?_)
      (fun t apart unmarked => sets.outside t fun waits => unmarked _ waits rfl)
      fun t o other => c.blocks_setJoin self _ t other⟩
  · rw [own]
    exact (sets.outside self (by simp [own])).trans (by simp [exact.enabled, running, own])
  · subst mark
    refine (sets.inside t waits).trans ?_
    simp [setJoin, blocks, exit]

/-- A thread comes or goes. -/
theorem Exact.setAlive (exact : Exact alive w c) (own : w self = none) (lives : Bool) :
    Exact (Function.update alive self lives) w { c with enableTable := Function.update c.enableTable self lives } := by
  refine ⟨fun t waits => ?_, fun t => ?_⟩
  · have apart : t ≠ self := by
      rintro rfl
      exact waits own
    rw [Function.update_of_ne apart]
    exact exact.living t waits
  · by_cases here : t = self
    · simp [here, own]
    · simp only [Function.update_of_ne here]
      exact exact.enabled t

end Lives

theorem awaits_insert (c : Controller) (self : ThreadId) (p : Pending) :
    ({ c with actionTable := c.actionTable.insert self p } : Controller).awaits =
      Function.update c.awaits self p.call.awaits := by
  funext t
  by_cases here : t = self
  · simp [awaits, here]
  · simp [awaits, here, Ne.symm here]

theorem getElem?_erase_action (c : Controller) (self t : ThreadId) :
    (c.actionTable.erase self)[t]? = if t = self then none else c.actionTable[t]? := by
  by_cases here : t = self
  · simp [here]
  · simp [Std.ExtTreeMap.getElem?_erase, here, Ne.symm here]

theorem awaits_erase (c : Controller) (self : ThreadId) :
    ({ c with actionTable := c.actionTable.erase self } : Controller).awaits = Function.update c.awaits self none := by
  funext t
  simp only [awaits, getElem?_erase_action]
  by_cases here : t = self
  · simp [here]
  · simp [here, awaits]

end Controller

namespace ControlRun
open Controller

/-- What every step keeps. -/
structure Inv (r : ControlRun) : Prop where
  tables : Tables r.control.awaits r.round r.arrivals r.control
  exact : Exact r.alive r.control.awaits r.control
  registered : ∀ t p, r.control.actionTable[t]? = some p → r.alive t = true
  held : ∀ t a, r.held t a = true ↔ (r.control.mutexInfo a).holder = some t
  unlocks : ∀ t p a, r.control.actionTable[t]? = some p → p.call = .mutexUnlock a →
    (r.control.mutexInfo a).holder = some t
  exited : ∀ t, (r.control.joinInfo t).exit = r.exited t
  gone : ∀ t, r.exited t = true → r.alive t = false
  racing : ∀ t, r.control.raceActiveTable[t]? = some true → r.alive t = true ∧
    ∀ p, r.control.actionTable[t]? = some p → p.call.isRace = true

variable {r s : ControlRun} {self t : ThreadId} {p : Pending}

theorem inv_initial : ({} : ControlRun).Inv where
  tables := ⟨fun a => ⟨by simp [Controller.awaits], List.nodup_nil, by simp⟩,
    fun a t timed => by simp [CondInfo.timed?, Controller.awaits],
    fun a => ⟨List.nodup_nil, by simp [Controller.awaits], by simp [Controller.awaits], rfl, by simp, Or.inl rfl, by simp⟩,
    fun child => ⟨List.nodup_nil, by simp [Controller.awaits]⟩⟩
  exact := ⟨fun t waits => absurd rfl waits, fun t => rfl⟩
  registered := by simp
  held := by simp
  unlocks := by simp
  exited t := rfl
  gone := by simp
  racing := by simp

theorem awaits_none (fresh : r.control.actionTable[self]? = none) : r.control.awaits self = none := by
  simp [Controller.awaits, fresh]

theorem Inv.before (inv : r.Inv) (fresh : r.control.actionTable[self]? = none) (running : r.alive self = true)
    (call : Call) (disciplined : r.Disciplined self call) :
    ∃ c', r.control.before self call = some c' ∧ c'.actionTable = r.control.actionTable ∧
      c'.raceActiveTable = r.control.raceActiveTable ∧
      (∀ a, (c'.mutexInfo a).holder = (r.control.mutexInfo a).holder) ∧
      (∀ t, (c'.joinInfo t).exit = (r.control.joinInfo t).exit) ∧
      Tables (Function.update r.control.awaits self call.awaits) (r.recordCall self call).round
        (r.recordCall self call).arrivals c' ∧
      Exact r.alive (Function.update r.control.awaits self call.awaits) c' := by
  have none := awaits_none fresh
  cases call with
  | mutexLock a =>
    have other : (r.control.mutexInfo a).holder ≠ some self := fun same => by
      simp [Disciplined, (inv.held self a).mpr same] at disciplined
    obtain ⟨m, enable, ran, holder, tables, exact⟩ := before_mutexLock inv.tables inv.exact none running other
    refine ⟨r.control.setMutex a (m, enable), by rw [Controller.before, ran]; rfl, rfl, rfl, fun b => ?_, fun t => rfl,
      tables, exact⟩
    by_cases same : b = a
    · subst same
      simpa [setMutex] using holder
    · simp [setMutex, same]
  | condWait a =>
    obtain ⟨tables, exact⟩ := before_cond inv.tables inv.exact none running a false
    exact ⟨_, rfl, rfl, rfl, fun b => rfl, fun t => rfl, tables, exact⟩
  | condTimedwait a =>
    obtain ⟨tables, exact⟩ := before_cond inv.tables inv.exact none running a true
    exact ⟨_, rfl, rfl, rfl, fun b => rfl, fun t => rfl, tables, exact⟩
  | barrierWait a =>
    obtain ⟨b, enable, ran, tables, exact⟩ := before_barrierWait inv.tables inv.exact none running disciplined
    exact ⟨r.control.setBarrier a (b, enable), by rw [Controller.before, ran]; rfl, rfl, rfl, fun b => rfl,
      fun t => rfl, tables, exact⟩
  | threadJoin child =>
    obtain ⟨tables, exact, exit⟩ := before_threadJoin inv.tables inv.exact none running child
    refine ⟨_, rfl, rfl, rfl, fun b => rfl, fun t => ?_, tables, exact⟩
    by_cases same : t = child
    · subst same
      simpa [setJoin] using exit
    · simp [setJoin, same]
  | _ =>
    have same : Function.update r.control.awaits self Option.none = r.control.awaits := by
      rw [← none, Function.update_eq_self]
    refine ⟨_, rfl, rfl, rfl, fun b => rfl, fun t => rfl, ?_, ?_⟩
    · exact same.symm ▸ inv.tables
    · exact same.symm ▸ inv.exact

/-- A call has returned. -/
structure Returned (r : ControlRun) (thd : ThreadId) (call : Call) (err : Errno) (c : Controller) : Prop where
  actions : c.actionTable = r.control.actionTable.erase thd
  exits : ∀ t, (c.joinInfo t).exit = (r.control.joinInfo t).exit
  holders : ∀ t a, t ≠ thd → (r.control.mutexInfo a).holder = some t → (c.mutexInfo a).holder = some t
  held : ∀ t a, (({ r with control := c }).recordReturn thd err call).held t a = true ↔
    (c.mutexInfo a).holder = some t
  races : ∀ t, c.raceActiveTable[t]? = some true →
    r.control.raceActiveTable[t]? = some true ∨ t = thd ∧ call.isRace = true
  tables : Tables (Function.update r.control.awaits thd none) (({ r with control := c }).recordReturn thd err call).round
    (({ r with control := c }).recordReturn thd err call).arrivals c
  exact : Exact r.alive (Function.update r.control.awaits thd none) c

theorem held_take (held : ∀ t a, r.held t a = true ↔ (r.control.mutexInfo a).holder = some t) {a : Address}
    {info : MutexInfo × EnableTable} (holder : info.1.holder = some self) (free : (r.control.mutexInfo a).holder = none)
    (t : ThreadId) (b : Address) :
    (r.hold self a true).held t b = true ↔ ((r.control.setMutex a info).mutexInfo b).holder = some t := by
  simp only [hold, setMutex, Function.update_apply]
  by_cases same : b = a
  · subst same
    by_cases here : t = self
    · simp [here, holder]
    · simpa [here, holder, Ne.symm here, free] using held t b
  · by_cases here : t = self
    · simpa [here, same] using held self b
    · simpa [here, same] using held t b

theorem held_release (held : ∀ t a, r.held t a = true ↔ (r.control.mutexInfo a).holder = some t) {a : Address}
    {info : MutexInfo × EnableTable} (holder : info.1.holder = none) (owned : (r.control.mutexInfo a).holder = some self)
    (t : ThreadId) (b : Address) :
    (r.hold self a false).held t b = true ↔ ((r.control.setMutex a info).mutexInfo b).holder = some t := by
  simp only [hold, setMutex, Function.update_apply]
  by_cases same : b = a
  · subst same
    by_cases here : t = self
    · simp [here, holder]
    · simpa [here, holder, Ne.symm here, owned] using held t b
  · by_cases here : t = self
    · simpa [here, same] using held self b
    · simpa [here, same] using held t b

theorem holders_kept (c : Controller) {a : Address} (info : MutexInfo × EnableTable)
    (only : ∀ t, t ≠ self → (c.mutexInfo a).holder ≠ some t) (t : ThreadId) (b : Address) (apart : t ≠ self)
    (holds : (c.mutexInfo b).holder = some t) : ((c.setMutex a info).mutexInfo b).holder = some t := by
  have other : b ≠ a := by
    rintro rfl
    exact only t apart holds
  simpa [setMutex, other] using holds

theorem Inv.after (inv : r.Inv) (found : r.control.actionTable[self]? = some p)
    (enabled : r.control.enableTable self = true) (quiet : r.Quiet p.call) :
    ∃ err c', r.control.resume self = some (err, c') ∧ r.Returned self p.call err c' := by
  obtain ⟨call, inst⟩ := p
  let c : Controller := { r.control with actionTable := r.control.actionTable.erase self }
  have tables : Tables r.control.awaits r.round r.arrivals c :=
    ⟨inv.tables.mutex, inv.tables.cond, inv.tables.barrier, inv.tables.join⟩
  have exact : Exact r.alive r.control.awaits c := ⟨inv.exact.living, inv.exact.enabled⟩
  have running := inv.registered self _ found
  have awaits : r.control.awaits self = call.awaits := by simp [Controller.awaits, found]
  suffices returns : ∃ err c', c.after self call = some (err, c') ∧ r.Returned self call err c' by
    obtain ⟨err, c', ran, returned⟩ := returns
    refine ⟨err, c', ?_, returned⟩
    rw [Controller.resume, found]
    simp only [debugAssert_pos enabled, Option.bind_eq_bind, Option.bind_some]
    exact ran
  have idle (none : call.awaits = none) : Function.update r.control.awaits self Option.none = r.control.awaits := by
    rw [← none, ← awaits, Function.update_eq_self]
  have own (none : call.awaits = none) : r.control.awaits self = Option.none := awaits.trans none
  have races (race : call.isRace = true) (t : ThreadId) (active : (c.raceActiveTable.insert self true)[t]? = some true) :
      c.raceActiveTable[t]? = some true ∨ t = self ∧ call.isRace = true := by
    rw [getElem?_insert_thread] at active
    split at active
    · next same => exact Or.inr ⟨same.symm, race⟩
    · exact Or.inl active
  cases call with
  | mutexLock a =>
    obtain ⟨free, m, enable, ran, holder, tables, exact⟩ := after_mutexLock tables exact awaits enabled
    exact ⟨.ok, c.setMutex a (m, enable), by rw [Controller.after, ran]; rfl, rfl, fun t => rfl,
      holders_kept c _ fun t _ => by simp [free], held_take inv.held holder free, fun t => Or.inl, tables, exact⟩
  | mutexTrylock a =>
    cases free : (c.mutexInfo a).holder with
    | none =>
      obtain ⟨m, enable, ran, holder, tables, exact⟩ := after_grab tables exact (own rfl) running free
      refine ⟨.ok, c.setMutex a (m, enable), ?_, rfl, fun t => rfl, holders_kept c _ fun t _ => by simp [free],
        held_take inv.held holder free, fun t => Or.inl, (idle rfl).symm ▸ tables, (idle rfl).symm ▸ exact⟩
      simp [Controller.after, MutexInfo.mutexTryLock, free, ran]
    | some owner =>
      have same : c.setMutex a (c.mutexInfo a, c.enableTable) = c := by simp [setMutex]
      refine ⟨.ebusy, c, ?_, rfl, fun t => rfl, fun t b _ holds => holds, inv.held, fun t => Or.inl,
        (idle rfl).symm ▸ tables, (idle rfl).symm ▸ exact⟩
      simp [Controller.after, MutexInfo.mutexTryLock, free, same]
  | mutexUnlock a =>
    have owned : (c.mutexInfo a).holder = some self := inv.unlocks self _ a found rfl
    obtain ⟨m, enable, ran, holder, tables, exact⟩ := after_mutexUnlock tables exact (own rfl) running owned
    exact ⟨.ok, c.setMutex a (m, enable), by rw [Controller.after, ran]; rfl, rfl, fun t => rfl,
      holders_kept c _ fun t apart => by simpa [owned] using Ne.symm apart, held_release inv.held holder owned,
      fun t => Or.inl, (idle rfl).symm ▸ tables, (idle rfl).symm ▸ exact⟩
  | condSignal a =>
    obtain ⟨info, enable, ran, timed?, sync, others⟩ := (exact.condSync tables a).condSignal
    obtain ⟨tables, exact⟩ := @after_wakeUp _ _ _ _ _ _ a tables exact (own rfl) running (info, enable) timed? sync others
    exact ⟨.ok, c.setCond a (info, enable), by rw [Controller.after, ran]; rfl, rfl, fun t => rfl,
      fun t b _ holds => holds, inv.held, fun t => Or.inl, (idle rfl).symm ▸ tables, (idle rfl).symm ▸ exact⟩
  | condBroadcast a =>
    obtain ⟨info, enable, ran, timed?, sync, others⟩ := (exact.condSync tables a).condBroadcast
    obtain ⟨tables, exact⟩ := @after_wakeUp _ _ _ _ _ _ a tables exact (own rfl) running (info, enable) timed? sync others
    exact ⟨.ok, c.setCond a (info, enable), by rw [Controller.after, ran]; rfl, rfl, fun t => rfl,
      fun t b _ holds => holds, inv.held, fun t => Or.inl, (idle rfl).symm ▸ tables, (idle rfl).symm ▸ exact⟩
  | condWait a =>
    obtain ⟨info, enable, ran, left⟩ := (exact.condSync tables a).condWait ((tables.cond a self false).mpr awaits) enabled
    obtain ⟨tables, exact⟩ := @after_wait _ _ _ _ _ _ a tables exact false awaits enabled (info, enable) left
    exact ⟨.ok, c.setCond a (info, enable), by rw [Controller.after, ran]; rfl, rfl, fun t => rfl,
      fun t b _ holds => holds, inv.held, fun t => Or.inl, tables, exact⟩
  | condTimedwait a =>
    obtain ⟨late, info, enable, ran, left⟩ := @CondSync.condTimedwait _ _ self (exact.condSync tables a)
    obtain ⟨tables, exact⟩ := @after_wait _ _ _ _ _ _ a tables exact true awaits enabled (info, enable) left
    exact ⟨if late then .etimedout else .ok, c.setCond a (info, enable), by rw [Controller.after, ran]; rfl, rfl,
      fun t => rfl, fun t b _ holds => holds, inv.held, fun t => Or.inl, tables, exact⟩
  | barrierInit a count =>
    obtain ⟨tables, exact⟩ := after_barrierInit tables exact quiet count
    exact ⟨.ok, c.setBarrier a ({ c.barrierInfo a with count := some count }, c.enableTable),
      by simp only [Controller.after, debugAssert_pos (show (c.barrierInfo a).waitQueue = [] from quiet)]; rfl, rfl,
      fun t => rfl, fun t b _ holds => holds, inv.held, fun t => Or.inl, (idle rfl).symm ▸ tables, (idle rfl).symm ▸ exact⟩
  | barrierWait a =>
    exact ⟨.ok, c, rfl, rfl, fun t => rfl, fun t b _ holds => holds, inv.held, fun t => Or.inl,
      after_barrierWait tables exact awaits enabled, exact.leave awaits enabled⟩
  | threadJoin child =>
    exact ⟨.ok, c, rfl, rfl, fun t => rfl, fun t b _ holds => holds, inv.held, fun t => Or.inl,
      after_threadJoin tables exact awaits enabled, exact.leave awaits enabled⟩
  | memRead a =>
    exact ⟨.ok, { c with raceActiveTable := c.raceActiveTable.insert self true }, rfl, rfl, fun t => rfl,
      fun t b _ holds => holds, inv.held, races rfl, (idle rfl).symm ▸ ⟨tables.mutex, tables.cond, tables.barrier,
        tables.join⟩, (idle rfl).symm ▸ ⟨exact.living, exact.enabled⟩⟩
  | memWrite a =>
    exact ⟨.ok, { c with raceActiveTable := c.raceActiveTable.insert self true }, rfl, rfl, fun t => rfl,
      fun t b _ holds => holds, inv.held, races rfl, (idle rfl).symm ▸ ⟨tables.mutex, tables.cond, tables.barrier,
        tables.join⟩, (idle rfl).symm ▸ ⟨exact.living, exact.enabled⟩⟩
  | _ =>
    exact ⟨.ok, c, rfl, rfl, fun t => rfl, fun t b _ holds => holds, inv.held, fun t => Or.inl,
      (idle rfl).symm ▸ tables, (idle rfl).symm ▸ exact⟩

/-- A thread comes or goes; `c` is the controller before that. -/
theorem Inv.setAlive (inv : r.Inv) (unregistered : r.control.actionTable[self]? = none) (lives : Bool)
    {c control : Controller} {exited : ThreadId → Bool} (tables : Tables r.control.awaits r.round r.arrivals c)
    (exact : Exact r.alive r.control.awaits c) (mutexes : c.mutexInfo = r.control.mutexInfo)
    (actions : ∀ t : ThreadId, control.actionTable[t]? = r.control.actionTable[t]?)
    (changed : control = { c with
      enableTable := Function.update c.enableTable self lives
      actionTable := control.actionTable
      raceActiveTable := r.control.raceActiveTable.insert self false })
    (exits : ∀ t, (c.joinInfo t).exit = exited t)
    (gone : ∀ t, exited t = true → Function.update r.alive self lives t = false) :
    ({ r with control, alive := Function.update r.alive self lives, exited } : ControlRun).Inv := by
  have waits : control.awaits = r.control.awaits := by
    funext t
    simp only [Controller.awaits, actions]
  have none := awaits_none unregistered
  have exact := exact.setAlive none lives
  rw [changed] at waits actions ⊢
  refine ⟨⟨?_, ?_, ?_, ?_⟩, ⟨?_, fun t => ?_⟩, fun t p found => ?_, ?_, fun t p a found => ?_, exits, gone,
    fun t active => ?_⟩
  · rw [waits]
    exact tables.mutex
  · rw [waits]
    exact tables.cond
  · rw [waits]
    exact tables.barrier
  · rw [waits]
    exact tables.join
  · rw [waits]
    exact exact.living
  · rw [waits]
    exact exact.enabled t
  · have before := (actions t).symm.trans found
    have apart : t ≠ self := by
      rintro rfl
      simp [unregistered] at before
    simpa [apart] using inv.registered t p before
  · exact mutexes ▸ inv.held
  · exact mutexes ▸ inv.unlocks t p a ((actions t).symm.trans found)
  · rw [getElem?_insert_thread] at active
    split at active
    · simp at active
    · next apart =>
      obtain ⟨living, race⟩ := inv.racing t active
      exact ⟨by simpa [Ne.symm apart] using living, fun p found => race p ((actions t).symm.trans found)⟩

theorem Inv.start (inv : r.Inv) (dead : r.alive self = false) (fresh : r.exited self = false) :
    ({ r with control := r.control.handleThreadStart self, alive := Function.update r.alive self true }).Inv := by
  have unregistered : r.control.actionTable[self]? = none := by
    rw [Option.eq_none_iff_forall_ne_some]
    intro p found
    simp [inv.registered self p found] at dead
  refine inv.setAlive unregistered true inv.tables inv.exact rfl (fun t => ?_) rfl inv.exited fun t ended => ?_
  · refine (r.control.getElem?_erase_action self t).trans ?_
    split
    · next here => rw [here, unregistered]
    · rfl
  · have apart : t ≠ self := by
      rintro rfl
      simp [fresh] at ended
    simpa [apart] using inv.gone t ended

theorem Inv.exit (inv : r.Inv) (running : r.alive self = true) (unregistered : r.control.actionTable[self]? = none) :
    ∃ control, r.control.handleThreadExit self = some control ∧
      ({ r with
        control
        alive := Function.update r.alive self false
        exited := Function.update r.exited self true } : ControlRun).Inv := by
  have remains : (r.control.joinInfo self).exit = false := by
    rw [inv.exited, Bool.eq_false_iff]
    intro ended
    simp [inv.gone self ended] at running
  obtain ⟨j, enable, ran, exit, tables, exact⟩ :=
    exit_notify inv.tables inv.exact (awaits_none unregistered) running remains
  have left : r.control.handleThreadExit self = some { r.control.setJoin self (j, enable) with
      enableTable := Function.update enable self false
      raceActiveTable := r.control.raceActiveTable.insert self false } := by
    rw [handleThreadExit, ran]
    rfl
  refine ⟨_, left, inv.setAlive unregistered false tables exact rfl (fun t => rfl) rfl
    (fun t => ?_) fun t ended => ?_⟩
  · by_cases here : t = self
    · simp [setJoin, here, exit]
    · simpa [setJoin, here] using inv.exited t
  · by_cases here : t = self
    · simp [here]
    · simpa [here] using inv.gone t (by simpa [here] using ended)

/-- What a call does to the history does not depend on the controller. -/
theorem recordCall_eq (r : ControlRun) (self : ThreadId) (call : Call) (c : Controller) :
    ({ r with control := c }).recordCall self call = { r with
      control := c
      arrivals := (r.recordCall self call).arrivals
      round := (r.recordCall self call).round } := by
  cases call <;> rfl

theorem Inv.call (inv : r.Inv) (running : r.alive self = true) (unregistered : r.control.actionTable[self]? = none)
    (disciplined : r.Disciplined self p.call)
    (racing : r.control.raceActiveTable[self]? = some true → p.call.isRace = true) :
    ∃ control, r.control.register self p = some control ∧ (({ r with control }).recordCall self p.call).Inv := by
  obtain ⟨c, ran, actions, races, holders, exits, tables, exact⟩ := inv.before unregistered running p.call disciplined
  have enabled : r.control.enableTable self = true := by
    rw [inv.exact.enabled, running, awaits_none unregistered]
    rfl
  have registers : r.control.register self p = some { c with actionTable := c.actionTable.insert self p } := by
    simp only [register, debugAssert_pos (Or.inr enabled), ran, Option.bind_eq_bind, Option.bind_some, Option.pure_def]
  have waits : ({ c with actionTable := c.actionTable.insert self p } : Controller).awaits =
      Function.update r.control.awaits self p.call.awaits := by
    rw [awaits_insert]
    congr 1
    funext t
    rw [Controller.awaits, actions]
    rfl
  have lookup (t : ThreadId) : (c.actionTable.insert self p)[t]? =
      if self = t then some p else r.control.actionTable[t]? := by
    rw [getElem?_insert_thread, actions]
  refine ⟨_, registers, ?_⟩
  rw [recordCall_eq]
  refine ⟨?_, ?_, fun t q found => ?_, fun t a => ?_, fun t q a found unlocks => ?_, fun t => ?_, inv.gone,
    fun t active => ?_⟩
  · rw [waits]
    exact ⟨tables.mutex, tables.cond, tables.barrier, tables.join⟩
  · rw [waits]
    exact ⟨exact.living, exact.enabled⟩
  · rw [lookup] at found
    split at found
    · next here => exact here ▸ running
    · exact inv.registered t q found
  · rw [holders]
    exact inv.held t a
  · rw [holders]
    rw [lookup] at found
    split at found
    · next here =>
      cases found
      subst here
      rw [unlocks] at disciplined
      exact (inv.held self a).mp disciplined
    · exact inv.unlocks t q a found unlocks
  · rw [exits]
    exact inv.exited t
  · rw [races] at active
    refine ⟨(inv.racing t active).1, fun q found => ?_⟩
    rw [lookup] at found
    split at found
    · next here =>
      cases found
      subst here
      exact racing active
    · exact (inv.racing t active).2 q found

theorem recordReturn_eq (r : ControlRun) (self : ThreadId) (err : Errno) (call : Call) :
    r.recordReturn self err call = { r with
      held := (r.recordReturn self err call).held
      arrivals := (r.recordReturn self err call).arrivals } := by
  cases call <;> first | rfl | (simp only [recordReturn]; split <;> rfl)

theorem Inv.resume (inv : r.Inv) (found : r.control.actionTable[self]? = some p)
    (enabled : r.control.enableTable self = true) (quiet : r.Quiet p.call) :
    ∃ err control, r.control.resume self = some (err, control) ∧
      (({ r with control }).recordReturn self err p.call).Inv := by
  obtain ⟨err, c, ran, returned⟩ := inv.after found enabled quiet
  refine ⟨err, c, ran, ?_⟩
  have waits : c.awaits = Function.update r.control.awaits self none := by
    rw [← awaits_erase]
    funext t
    simp only [Controller.awaits, returned.actions]
  have others {t : ThreadId} {q : Pending} (found : c.actionTable[t]? = some q) :
      t ≠ self ∧ r.control.actionTable[t]? = some q := by
    rw [returned.actions, getElem?_erase_action] at found
    split at found
    · simp at found
    · next apart => exact ⟨apart, found⟩
  rw [recordReturn_eq]
  refine ⟨?_, ?_, fun t q found => inv.registered t q (others found).2, returned.held, fun t q a found unlocks => ?_,
    fun t => ?_, inv.gone, fun t active => ?_⟩
  · rw [waits]
    have tables := returned.tables
    rw [recordReturn_eq] at tables
    exact tables
  · rw [waits]
    exact returned.exact
  · obtain ⟨apart, before⟩ := others found
    exact returned.holders t a apart (inv.unlocks t q a before unlocks)
  · exact (returned.exits t).trans (inv.exited t)
  · rcases returned.races t active with old | ⟨rfl, race⟩
    · exact ⟨(inv.racing t old).1, fun q found => (inv.racing t old).2 q (others found).2⟩
    · refine ⟨inv.registered t p found, fun q found => ?_⟩
      exact absurd rfl (others found).1

/-- Every step that is allowed can be taken, and keeps the invariant. -/
theorem Inv.step (inv : r.Inv) {e : ControlEvent} (allowed : r.Allows e) : ∃ s, r.step e = some s ∧ s.Inv := by
  cases e with
  | start self =>
    obtain ⟨dead, fresh⟩ := allowed
    exact ⟨_, rfl, inv.start dead fresh⟩
  | call self p =>
    obtain ⟨running, unregistered, disciplined, racing⟩ := allowed
    obtain ⟨control, ran, kept⟩ := inv.call running unregistered disciplined racing
    exact ⟨_, by rw [ControlRun.step, ran]; rfl, kept⟩
  | resume self =>
    obtain ⟨enabled, p, found, quiet⟩ := allowed
    obtain ⟨err, control, ran, kept⟩ := inv.resume found enabled quiet
    exact ⟨_, by rw [ControlRun.step, Option.mem_def.mp found, ran]; rfl, kept⟩
  | endRace self =>
    obtain ⟨running, unregistered⟩ := allowed
    refine ⟨_, rfl, ⟨inv.tables.mutex, inv.tables.cond, inv.tables.barrier, inv.tables.join⟩,
      ⟨inv.exact.living, inv.exact.enabled⟩, inv.registered, inv.held, inv.unlocks, inv.exited, inv.gone,
      fun t active => ?_⟩
    simp only [handleAfterRace, getElem?_insert_thread] at active
    split at active
    · simp at active
    · exact inv.racing t active
  | exit self =>
    obtain ⟨running, unregistered⟩ := allowed
    obtain ⟨control, ran, kept⟩ := inv.exit running unregistered
    exact ⟨_, by rw [ControlRun.step, ran]; rfl, kept⟩

theorem Reachable.inv (reached : r.Reachable) : r.Inv := by
  apply reached.invariant Inv
  · rintro r rfl
    exact inv_initial
  · intro r e s inv allowed stepped
    obtain ⟨next, ran, kept⟩ := inv.step allowed
    cases stepped.symm.trans ran
    exact kept

/-- What the program has to be waiting for when a registered call is not enabled. -/
def MustWait (r : ControlRun) (t : ThreadId) : Call → Prop
  | .mutexLock a => ∃ u, r.held u a = true
  | .threadJoin child => r.exited child = false
  | .condWait a => ∃ w, (r.control.condInfo a).waitMap[t]? = some w ∧ w.broadcasted = false ∧ w.signalSet = ∅
  | .barrierWait a => ((r.arrivals a).rounds (r.round t)).arrived < ((r.arrivals a).rounds (r.round t)).size
  | _ => False

theorem Inv.enabled_iff (inv : r.Inv) (found : r.control.actionTable[t]? = some p) :
    r.control.enableTable t = false ↔ r.MustWait t p.call := by
  have awaits : r.control.awaits t = p.call.awaits := by simp [Controller.awaits, found]
  rw [inv.exact.enabled, inv.registered t p found, Bool.true_and, Bool.not_eq_false', awaits]
  obtain ⟨call, inst⟩ := p
  cases call with
  | mutexLock a =>
    simp only [Call.awaits, Option.any_some, blocks, MustWait, inv.held]
    exact Option.isSome_iff_exists
  | threadJoin child =>
    simp [Call.awaits, blocks, MustWait, inv.exited]
  | condWait a =>
    obtain ⟨w, waits, untimed⟩ := Option.map_eq_some_iff.mp ((inv.tables.cond a t false).mpr awaits)
    simp [Call.awaits, blocks, MustWait, waits, WaitInfo.asleep, untimed]
  | condTimedwait a =>
    obtain ⟨w, waits, timed⟩ := Option.map_eq_some_iff.mp ((inv.tables.cond a t true).mpr awaits)
    simp [Call.awaits, blocks, MustWait, waits, WaitInfo.asleep, timed]
  | barrierWait a =>
    simp only [Call.awaits, Option.any_some, blocks, MustWait, decide_eq_true_eq]
    exact (inv.tables.barrier a).mem_waitQueue_iff awaits
  | _ => simp [Call.awaits, MustWait]

/-- Between the units of a racy access a thread is not disabled. -/
theorem Inv.enabled_of_racing (inv : r.Inv) (racing : r.control.raceActiveTable[t]? = some true)
    (found : r.control.actionTable[t]? = some p) : p.call.isRace = true ∧ r.control.enableTable t = true := by
  have race := (inv.racing t racing).2 p found
  refine ⟨race, ?_⟩
  by_contra disabled
  have waits := (inv.enabled_iff found).mp (Bool.not_eq_true _ ▸ disabled)
  cases call : p.call <;> simp [call, Call.isRace] at race <;> simp [call, MustWait] at waits

end ControlRun

/-- A thread that is about to go on is disabled if and only if it has to wait: for a mutex
that some thread holds, for a thread that has not exited, for a signal or a broadcast, or for
the threads that its barrier is missing. No other thread is disabled while it runs, a mutex
has one holder, and no assertion fails: neither in the handlers, nor the one of `CreateState`
about threads in a racy access. -/
theorem enable_table_exact {r : ControlRun} (reached : r.Reachable) :
    (∀ t p, r.control.actionTable[t]? = some p → (r.control.enableTable t = false ↔ r.MustWait t p.call)) ∧
      (∀ t, r.alive t = true → r.control.actionTable[t]? = none → r.control.enableTable t = true) ∧
      (∀ t u a, r.held t a = true → r.held u a = true → t = u) ∧
      (∀ t p, r.control.raceActiveTable[t]? = some true → r.control.actionTable[t]? = some p →
        r.control.enableTable t = true) ∧
      ∀ e, r.Allows e → ∃ s, r.step e = some s := by
  have inv := reached.inv
  refine ⟨fun t p found => inv.enabled_iff found, fun t running unregistered => ?_, fun t u a first second => ?_,
    fun t p racing found => (inv.enabled_of_racing racing found).2, fun e allowed => ?_⟩
  · rw [inv.exact.enabled, running, ControlRun.awaits_none unregistered]
    rfl
  · rw [inv.held] at first second
    exact Option.some.inj (first.symm.trans second)
  · obtain ⟨s, ran, _⟩ := inv.step allowed
    exact ⟨s, ran⟩

/-- One thread holds a mutex and another one waits for it. -/
theorem enable_table_exact_pair : ∃ r : ControlRun, r.Reachable ∧ r.MustWait 2 (.mutexLock 8) ∧
    r.control.enableTable 2 = false := by
  have t : (Runs.follow ControlRun.Allows ControlRun.step {} [.start 1, .start 2, .call 1 ⟨.mutexLock 8, 0⟩, .resume 1,
      .call 2 ⟨.mutexLock 8, 0⟩]).any (fun r => r.control.actionTable[(2 : ThreadId)]? = some ⟨.mutexLock 8, 0⟩ &&
        r.control.enableTable 2 = false) = true := by
    decide +kernel
  obtain ⟨r, reached, found⟩ : ∃ r : ControlRun, Runs.Reach (· = {}) ControlRun.Allows ControlRun.step r ∧ _ :=
    Runs.Reach.of_follow (by rfl) _ t
  simp only [Bool.and_eq_true, decide_eq_true_eq] at found
  exact ⟨r, reached, ((enable_table_exact reached).1 2 _ found.1).mp found.2, found.2⟩

end Maple.Systematic
