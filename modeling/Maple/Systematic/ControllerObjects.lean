import Maple.Systematic.Controller
import Maple.Systematic.CondRuns

/-! What the operations of the controller do to one mutex, condition variable, barrier or
thread, and to the threads that wait for it. -/
namespace Maple.Systematic

/-- The threads of a set are enabled or disabled, and no others. -/
structure Sets (P : ThreadId → Prop) (enabled : Bool) (enable enable' : EnableTable) : Prop where
  inside : ∀ t, P t → enable' t = enabled
  outside : ∀ t, ¬ P t → enable' t = enable t

theorem setAll_spec (enabled : Bool) {threads : List ThreadId} (enable : EnableTable) (distinct : threads.Nodup)
    (other : ∀ t ∈ threads, enable t = !enabled) :
    ∃ enable', setAll enabled threads enable = some enable' ∧ Sets (· ∈ threads) enabled enable enable' := by
  induction threads generalizing enable with
  | nil => exact ⟨enable, rfl, by simp, fun t _ => rfl⟩
  | cons u rest ih =>
    obtain ⟨apart, distinct⟩ := List.nodup_cons.mp distinct
    obtain ⟨here, later⟩ := List.forall_mem_cons.mp other
    obtain ⟨enable', ran, sets⟩ := ih (Function.update enable u enabled) distinct fun t member => by
      rw [Function.update_of_ne (ne_of_mem_of_not_mem member apart)]
      exact later t member
    refine ⟨enable', ?_, fun t member => ?_, fun t outside => ?_⟩
    · rw [setAll, List.foldlM_cons, debugAssert_pos here]
      exact ran
    · rcases List.mem_cons.mp member with rfl | member
      · rw [sets.outside t apart, Function.update_self]
      · exact sets.inside t member
    · rw [List.mem_cons, not_or] at outside
      rw [sets.outside t outside.2, Function.update_of_ne outside.1]

section Mutexes

/-- What a mutex knows about the threads that are about to lock it. -/
structure MutexOk (waits : ThreadId → Prop) (m : MutexInfo) : Prop where
  ready : ∀ t, t ∈ m.readyMap ↔ waits t
  distinct : m.waitQueue.Nodup
  queue : ∀ t, t ∈ m.waitQueue ↔ waits t ∧ m.holder.isSome = true

variable {waits : ThreadId → Prop} {m : MutexInfo} {enable : EnableTable} {self : ThreadId}

theorem MutexOk.waitQueue_nil (ok : MutexOk waits m) (free : m.holder = none) : m.waitQueue = [] := by
  rw [List.eq_nil_iff_forall_not_mem]
  intro t member
  simpa [free] using ((ok.queue t).mp member).2

theorem MutexOk.startLock (ok : MutexOk waits m) (fresh : ¬ waits self) (other : m.holder ≠ some self)
    (enabled : enable self = true) : ∃ m' enable', m.startLock enable self = some (m', enable') ∧
      MutexOk (fun t => waits t ∨ t = self) m' ∧ m'.holder = m.holder ∧
      Sets (· = self) (!m.holder.isSome) enable enable' := by
  have ready (t : ThreadId) : t ∈ m.readyMap.insert self false ↔ waits t ∨ t = self := by
    rw [Std.ExtTreeMap.mem_insert, Std.compare_eq_iff_eq, ok.ready]
    grind
  have away : self ∉ m.waitQueue := fun member => fresh ((ok.queue self).mp member).1
  cases free : m.holder.isSome with
  | true =>
    have ran : m.startLock enable self = some ({ m with
        waitQueue := m.waitQueue ++ [self], readyMap := m.readyMap.insert self false }, Function.update enable self false) := by
      simp only [MutexInfo.startLock, debugAssert_pos other, free, if_true, Option.bind_eq_bind, Option.bind_some,
        Option.pure_def]
    refine ⟨_, _, ran, ⟨ready, ?_, fun t => ?_⟩, rfl, ?_, fun t apart => Function.update_of_ne apart _ _⟩
    · exact List.nodup_append.mpr ⟨ok.distinct, List.nodup_singleton _, by
        rintro t member u single rfl
        exact away (List.mem_singleton.mp single ▸ member)⟩
    · simp [ok.queue, free]
    · rintro t rfl
      simp
  | false =>
    have ran : m.startLock enable self = some ({ m with readyMap := m.readyMap.insert self false }, enable) := by
      simp only [MutexInfo.startLock, debugAssert_pos other, free, Bool.false_eq_true, if_false, Option.bind_eq_bind,
        Option.bind_some, Option.pure_def]
    refine ⟨_, _, ran, ⟨ready, ok.distinct, fun t => ?_⟩, rfl, ?_, fun t _ => rfl⟩
    · rw [ok.waitQueue_nil (by simpa using free)]
      simp [free]
    · rintro t rfl
      simpa using enabled

theorem MutexOk.grab (ok : MutexOk waits m) (free : m.holder = none) (ready : ∀ t, waits t → enable t = true) :
    ∃ m' enable', m.grab enable self = some (m', enable') ∧ MutexOk waits m' ∧ m'.holder = some self ∧
      Sets waits false enable enable' := by
  have keys (t : ThreadId) : t ∈ m.readyMap.keys ↔ waits t := by rw [Std.ExtTreeMap.mem_keys, ok.ready]
  obtain ⟨enable', ran, sets⟩ := setAll_spec false enable m.readyMap.nodup_keys
    fun t member => ready t ((keys t).mp member)
  have grabbed : m.grab enable self =
      some ({ m with holder := some self, waitQueue := m.waitQueue ++ m.readyMap.keys }, enable') := by
    rw [MutexInfo.grab, suspendAll, ran]
    rfl
  refine ⟨_, enable', grabbed, ⟨ok.ready, ?_, fun t => ?_⟩, rfl,
    fun t member => sets.inside t ((keys t).mpr member), fun t away => sets.outside t (mt (keys t).mp away)⟩
  · simpa [ok.waitQueue_nil free] using m.readyMap.nodup_keys
  · simp [ok.waitQueue_nil free, ok.ready]

theorem MutexOk.mutexLock (ok : MutexOk waits m) (free : m.holder = none) (ready : ∀ t, waits t → enable t = true) :
    ∃ m' enable', m.mutexLock enable self = some (m', enable') ∧ MutexOk (fun t => waits t ∧ t ≠ self) m' ∧
      m'.holder = some self ∧ Sets (fun t => waits t ∧ t ≠ self) false enable enable' := by
  have ok' : MutexOk (fun t => waits t ∧ t ≠ self) { m with readyMap := m.readyMap.erase self } := by
    refine ⟨fun t => ?_, ok.distinct, fun t => ?_⟩
    · rw [Std.ExtTreeMap.mem_erase, ok.ready, ne_eq, Std.compare_eq_iff_eq]
      grind
    · simp [ok.waitQueue_nil free, free]
  obtain ⟨m', enable', ran, rest⟩ := @MutexOk.grab _ _ _ self ok' free fun t waits => ready t waits.1
  exact ⟨m', enable', by simp only [MutexInfo.mutexLock, debugAssert_pos free, Option.bind_eq_bind, Option.bind_some, ran],
    rest⟩

theorem MutexOk.mutexUnlock (ok : MutexOk waits m) (held : m.holder = some self)
    (asleep : ∀ t, waits t → enable t = false) :
    ∃ m' enable', m.mutexUnlock enable self = some (m', enable') ∧ MutexOk waits m' ∧ m'.holder = none ∧
      Sets waits true enable enable' := by
  have queue (t : ThreadId) : t ∈ m.waitQueue ↔ waits t := by simp [ok.queue, held]
  obtain ⟨enable', ran, sets⟩ := setAll_spec true enable ok.distinct
    fun t member => asleep t ((queue t).mp member)
  have unlocked : m.mutexUnlock enable self = some ({ m with holder := none, waitQueue := [] }, enable') := by
    simp only [MutexInfo.mutexUnlock, debugAssert_pos held, wakeAll, ran, Option.bind_eq_bind, Option.bind_some,
      Option.pure_def]
  exact ⟨_, enable', unlocked, ⟨ok.ready, List.nodup_nil, by simp⟩, rfl,
    fun t member => sets.inside t ((queue t).mpr member), fun t away => sets.outside t (mt (queue t).mp away)⟩

end Mutexes

section Joins

structure JoinOk (waits : ThreadId → Prop) (j : JoinInfo) : Prop where
  distinct : j.waitQueue.Nodup
  queue : ∀ t, t ∈ j.waitQueue ↔ waits t ∧ j.exit = false

variable {waits : ThreadId → Prop} {j : JoinInfo} {enable : EnableTable} {self : ThreadId}

theorem JoinOk.startJoin (ok : JoinOk waits j) (fresh : ¬ waits self) (enabled : enable self = true) :
    JoinOk (fun t => waits t ∨ t = self) (j.startJoin enable self).1 ∧ (j.startJoin enable self).1.exit = j.exit ∧
      Sets (· = self) j.exit enable (j.startJoin enable self).2 := by
  have away : self ∉ j.waitQueue := fun member => fresh ((ok.queue self).mp member).1
  cases ended : j.exit with
  | true =>
    simp only [JoinInfo.startJoin, ended, if_true]
    refine ⟨⟨ok.distinct, fun t => by simp [ok.queue, ended]⟩, trivial, ?_, fun t _ => rfl⟩
    rintro t rfl
    exact enabled
  | false =>
    simp only [JoinInfo.startJoin, ended, Bool.false_eq_true, if_false]
    refine ⟨⟨?_, fun t => by simp [ok.queue, ended]⟩, trivial, ?_, fun t apart => Function.update_of_ne apart _ _⟩
    · exact List.nodup_append.mpr ⟨ok.distinct, List.nodup_singleton _, by
        rintro t member u single rfl
        exact away (List.mem_singleton.mp single ▸ member)⟩
    · rintro t rfl
      simp

theorem JoinOk.notify (ok : JoinOk waits j) (running : j.exit = false) (asleep : ∀ t, waits t → enable t = false) :
    ∃ j' enable', j.notify enable = some (j', enable') ∧ JoinOk waits j' ∧ j'.exit = true ∧
      Sets waits true enable enable' := by
  have queue (t : ThreadId) : t ∈ j.waitQueue ↔ waits t := by simp [ok.queue, running]
  obtain ⟨enable', ran, sets⟩ := setAll_spec true enable ok.distinct
    fun t member => asleep t ((queue t).mp member)
  have notified : j.notify enable = some ({ exit := true, waitQueue := [] }, enable') := by
    rw [JoinInfo.notify, wakeAll, ran]
    rfl
  exact ⟨_, enable', notified, ⟨List.nodup_nil, by simp⟩, rfl,
    fun t member => sets.inside t ((queue t).mpr member), fun t away => sets.outside t (mt (queue t).mp away)⟩

end Joins

section Conds
variable {c : CondInfo} {enable : EnableTable} {self t : ThreadId} {w : WaitInfo}

/-- Whether a thread waits, and if it does, whether its wait is timed. -/
def CondInfo.timed? (c : CondInfo) (t : ThreadId) : Option Bool := c.waitMap[t]?.map WaitInfo.timed

/-- Waiters are enabled unless they are asleep. -/
def CondSync (c : CondInfo) (enable : EnableTable) : Prop := ∀ t w, c.waitMap[t]? = some w → enable t = !w.asleep

theorem CondInfo.timed?_map {c' : CondInfo} (f : ThreadId → WaitInfo → WaitInfo) (mapped : c'.waitMap = c.waitMap.map f)
    (kept : ∀ t w, (f t w).timed = w.timed) : c'.timed? = c.timed? := by
  funext t
  simp only [timed?, mapped, Std.ExtTreeMap.getElem?_map, Option.map_map]
  congr 1
  funext w
  exact kept t w

theorem CondSync.wakeUp (sync : CondSync c enable) :
    c.wakeUp enable = some fun t => enable t || c.waitMap[t]?.any WaitInfo.asleep := by
  rw [CondInfo.wakeUp, debugAssert_pos]
  · rfl
  · rintro ⟨t, w⟩ member asleep
    rw [sync t w (Std.ExtTreeMap.mem_toList_iff_getElem?_eq_some.mp member), asleep]
    rfl

/-- Everybody who waits is enabled afterwards. -/
theorem CondSync.woken (sync : CondSync c enable) (found : c.waitMap[t]? = some w) :
    (enable t || c.waitMap[t]?.any WaitInfo.asleep) = true := by
  rw [sync t w found, found]
  cases asleep : w.asleep <;> simp [asleep]

theorem CondSync.condSignal (sync : CondSync c enable) :
    ∃ c' enable', c.condSignal enable = some (c', enable') ∧ c'.timed? = c.timed? ∧ CondSync c' enable' ∧
      ∀ t, c.timed? t = none → enable' t = enable t := by
  let signalled (_ : ThreadId) (w : WaitInfo) : WaitInfo :=
    if w.broadcasted then w else { w with signalSet := w.signalSet.insert (c.currSignalId + 1) }
  have ran : c.condSignal enable = some ({ currSignalId := c.currSignalId + 1, waitMap := c.waitMap.map signalled },
      fun t => enable t || c.waitMap[t]?.any WaitInfo.asleep) := by
    rw [CondInfo.condSignal, sync.wakeUp]
    rfl
  refine ⟨_, _, ran, CondInfo.timed?_map signalled rfl fun t w => ?_, fun t w found => ?_, fun t away => ?_⟩
  · dsimp only [signalled]
    split
    · rfl
    · rfl
  · obtain ⟨old, before, rfl⟩ := Option.map_eq_some_iff.mp (Std.ExtTreeMap.getElem?_map.symm.trans found)
    refine (sync.woken before).trans ?_
    rw [eq_comm, Bool.not_eq_true']
    dsimp only [signalled]
    split
    · next closed => simp [WaitInfo.asleep, closed]
    · simp [WaitInfo.asleep]
  · have absent : c.waitMap[t]? = none := Option.map_eq_none_iff.mp away
    simp [absent]

theorem CondSync.condBroadcast (sync : CondSync c enable) :
    ∃ c' enable', c.condBroadcast enable = some (c', enable') ∧ c'.timed? = c.timed? ∧ CondSync c' enable' ∧
      ∀ t, c.timed? t = none → enable' t = enable t := by
  let reached (_ : ThreadId) (w : WaitInfo) : WaitInfo :=
    if w.broadcasted then w else { w with broadcasted := true, signalSet := ∅ }
  have ran : c.condBroadcast enable = some ({ c with waitMap := c.waitMap.map reached },
      fun t => enable t || c.waitMap[t]?.any WaitInfo.asleep) := by
    rw [CondInfo.condBroadcast, sync.wakeUp]
    rfl
  refine ⟨_, _, ran, CondInfo.timed?_map reached rfl fun t w => ?_, fun t w found => ?_, fun t away => ?_⟩
  · dsimp only [reached]
    split
    · rfl
    · rfl
  · obtain ⟨old, before, rfl⟩ := Option.map_eq_some_iff.mp (Std.ExtTreeMap.getElem?_map.symm.trans found)
    refine (sync.woken before).trans ?_
    rw [eq_comm, Bool.not_eq_true']
    dsimp only [reached]
    split
    · next closed => simp [WaitInfo.asleep, closed]
    · simp [WaitInfo.asleep]
  · have absent : c.waitMap[t]? = none := Option.map_eq_none_iff.mp away
    simp [absent]

theorem CondSync.startWait (sync : CondSync c enable) (fresh : c.timed? self = none) (enabled : enable self = true)
    (timed : Bool) : (∀ t, (c.startWait enable self timed).1.timed? t = if t = self then some timed else c.timed? t) ∧
      CondSync (c.startWait enable self timed).1 (c.startWait enable self timed).2 ∧
      ∀ t, t ≠ self → (c.startWait enable self timed).2 t = enable t := by
  have absent : c.waitMap[self]? = none := Option.map_eq_none_iff.mp fresh
  have lookup (t : ThreadId) : (c.startWait enable self timed).1.waitMap[t]? =
      if t = self then some { timed } else c.waitMap[t]? := by
    simp [CondInfo.startWait, absent, eq_comm]
  have others (t : ThreadId) (apart : t ≠ self) : (c.startWait enable self timed).2 t = enable t := by
    cases timed with
    | true => rfl
    | false => exact Function.update_of_ne apart _ _
  refine ⟨fun t => ?_, fun t w found => ?_, others⟩
  · rw [CondInfo.timed?, lookup]
    split
    · rfl
    · rfl
  · rw [lookup] at found
    split at found
    · next own =>
      cases found
      subst own
      cases timed with
      | true => simpa [CondInfo.startWait, WaitInfo.asleep] using enabled
      | false => simp [CondInfo.startWait, WaitInfo.asleep]
    · next apart => rw [others t apart, sync t w found]

/-- A waiter with a signal is enabled. -/
theorem awake_of_loses {id : BitVec 32} (loses : CondInfo.loses self id t w = true) : w.asleep = false := by
  simp only [CondInfo.loses, Bool.and_eq_true] at loses
  have filled : w.signalSet.isEmpty = false := Std.ExtTreeSet.isEmpty_eq_false_iff.mpr
    (Std.ExtTreeSet.ne_empty_of_mem (Std.ExtTreeSet.mem_iff_contains.mpr loses.2))
  simp [WaitInfo.asleep, filled]

/-- The loop over the other waiters. -/
theorem CondSync.consume (sync : CondSync c enable) (id : BitVec 32) :
    ∃ c' enable', c.consume enable self id = some (c', enable') ∧ c'.timed? = c.timed? ∧
      (∀ t w, t ≠ self → c'.waitMap[t]? = some w → enable' t = !w.asleep) ∧
      ∀ t, c.timed? t = none ∨ t = self → enable' t = enable t := by
  let lost (t : ThreadId) (w : WaitInfo) : WaitInfo :=
    if CondInfo.loses self id t w then { w with signalSet := w.signalSet.erase id } else w
  have ran : c.consume enable self id = some ({ c with waitMap := c.waitMap.map lost },
      fun t => enable t && !c.waitMap[t]?.any (CondInfo.dozes self id t)) := by
    rw [CondInfo.consume, debugAssert_pos]
    · rfl
    · rintro ⟨t, w⟩ member dozes
      simp only [CondInfo.dozes, Bool.and_eq_true] at dozes
      rw [sync t w (Std.ExtTreeMap.mem_toList_iff_getElem?_eq_some.mp member), awake_of_loses dozes.1.1]
      rfl
  refine ⟨_, _, ran, CondInfo.timed?_map lost rfl fun t w => ?_, fun t w apart found => ?_, fun t outside => ?_⟩
  · dsimp only [lost]
    split
    · rfl
    · rfl
  · obtain ⟨old, before, rfl⟩ := Option.map_eq_some_iff.mp (Std.ExtTreeMap.getElem?_map.symm.trans found)
    simp only [before, Option.any_some, sync t old before, lost]
    cases loses : CondInfo.loses self id t old with
    | false => simp [CondInfo.dozes, loses]
    | true =>
      have open_ : old.broadcasted = false := by
        simp only [CondInfo.loses, Bool.and_eq_true, Bool.not_eq_true'] at loses
        exact loses.1.2
      have same : CondInfo.dozes self id t old = WaitInfo.asleep { old with signalSet := old.signalSet.erase id } := by
        simp only [CondInfo.dozes, WaitInfo.asleep, loses, open_, Bool.not_false, Bool.true_and]
      simp only [awake_of_loses loses, same, Bool.not_false, Bool.true_and, if_true]
  · rcases outside with away | rfl
    · have absent : c.waitMap[t]? = none := Option.map_eq_none_iff.mp away
      simp [absent]
    · have never : CondInfo.dozes t id t = fun _ => false := by
        funext w
        simp [CondInfo.dozes, CondInfo.loses]
      simp [never]

theorem CondInfo.timed?_eraseWait (c : CondInfo) (self t : ThreadId) :
    (c.eraseWait self).timed? t = if t = self then none else c.timed? t := by
  simp only [timed?, eraseWait, Std.ExtTreeMap.getElem?_erase, Std.compare_eq_iff_eq]
  split
  · next own => simp [own]
  · next apart => simp [Ne.symm apart]

/-- The wait of a thread is over. -/
theorem CondSync.eraseWait (sync : ∀ t w, t ≠ self → c.waitMap[t]? = some w → enable t = !w.asleep) :
    CondSync (c.eraseWait self) enable := by
  intro t w found
  simp only [CondInfo.eraseWait, Std.ExtTreeMap.getElem?_erase, Std.compare_eq_iff_eq] at found
  split at found
  · simp at found
  · next apart => exact sync t w (Ne.symm apart) found

/-- What a waiter does after its schedule point. -/
structure CondLeft (c : CondInfo) (enable : EnableTable) (thd : ThreadId) (c' : CondInfo) (enable' : EnableTable) :
    Prop where
  timed? : ∀ t, c'.timed? t = if t = thd then none else c.timed? t
  sync : CondSync c' enable'
  others : ∀ t, c.timed? t = none ∨ t = thd → enable' t = enable t

theorem CondSync.left (sync : CondSync c enable) : CondLeft c enable self (c.eraseWait self) enable where
  timed? := c.timed?_eraseWait self
  sync := .eraseWait fun t w _ => sync t w
  others _ _ := rfl

theorem CondSync.left_consume (sync : CondSync c enable) (id : BitVec 32) :
    ∃ c' enable', c.consume enable self id = some (c', enable') ∧ CondLeft c enable self (c'.eraseWait self) enable' := by
  obtain ⟨c', enable', ran, timed, sync', others⟩ := @CondSync.consume _ _ self sync id
  exact ⟨c', enable', ran, fun t => by rw [c'.timed?_eraseWait, timed], .eraseWait sync', others⟩

/-- A waiter that is enabled finds a signal, unless a broadcast has reached it. -/
theorem CondSync.condWait (sync : CondSync c enable) (waiting : c.timed? self = some false)
    (enabled : enable self = true) :
    ∃ c' enable', c.condWait enable self = some (c', enable') ∧ CondLeft c enable self c' enable' := by
  obtain ⟨w, found, untimed⟩ := Option.map_eq_some_iff.mp waiting
  have awake := sync self w found
  rw [enabled, eq_comm, Bool.not_eq_true'] at awake
  cases reached : w.broadcasted with
  | true => exact ⟨_, _, by simp [CondInfo.condWait, found, reached], sync.left⟩
  | false =>
    obtain ⟨id, first⟩ : ∃ id, firstSignal w.signalSet = some id := by
      rw [firstSignal_eq]
      refine Option.isSome_iff_exists.mp (Std.ExtTreeSet.isSome_min?_iff_ne_empty.mpr fun empty => ?_)
      simp [WaitInfo.asleep, reached, untimed, empty] at awake
    obtain ⟨c', enable', ran, left⟩ := @CondSync.left_consume _ _ self sync id
    exact ⟨_, _, by simp [CondInfo.condWait, found, reached, first, ran], left⟩

theorem CondSync.condTimedwait (sync : CondSync c enable) :
    ∃ late c' enable', c.condTimedwait enable self = some (late, c', enable') ∧ CondLeft c enable self c' enable' := by
  cases reached : (c.waitMap[self]?.getD {}).broadcasted with
  | true => exact ⟨false, _, _, by simp [CondInfo.condTimedwait, reached], sync.left⟩
  | false =>
    cases first : firstSignal (c.waitMap[self]?.getD {}).signalSet with
    | none => exact ⟨true, _, _, by simp [CondInfo.condTimedwait, reached, first], sync.left⟩
    | some id =>
      obtain ⟨c', enable', ran, left⟩ := @CondSync.left_consume _ _ self sync id
      exact ⟨false, _, _, by simp [CondInfo.condTimedwait, reached, first, ran], left⟩

end Conds

section Barriers

/-- The wait queue holds the threads of the current round. -/
structure BarrierOk (waits : ThreadId → Prop) (round : ThreadId → ℕ) (log : BarrierLog) (b : BarrierInfo) : Prop where
  distinct : b.waitQueue.Nodup
  queue : ∀ t, t ∈ b.waitQueue ↔ waits t ∧ round t = log.current
  bound : ∀ t, waits t → round t ≤ log.current
  arrived : b.waitQueue.length = (log.rounds log.current).arrived
  size : ∀ k, b.count = some k → (log.rounds log.current).size = k.toNat
  room : (log.rounds log.current).arrived = 0 ∨ (log.rounds log.current).arrived < (log.rounds log.current).size
  full : ∀ n < log.current, (log.rounds n).size ≤ (log.rounds n).arrived

variable {waits : ThreadId → Prop} {round : ThreadId → ℕ} {log : BarrierLog} {b : BarrierInfo} {enable : EnableTable}
  {self t : ThreadId} {k : BitVec 32}

theorem BarrierLog.arrive_more (log : BarrierLog)
    (more : (log.rounds log.current).arrived + 1 < (log.rounds log.current).size) :
    log.arrive.current = log.current ∧ ∀ n, log.arrive.rounds n = if n = log.current then
      ⟨(log.rounds log.current).size, (log.rounds log.current).arrived + 1⟩ else log.rounds n := by
  rw [arrive, if_pos more]
  exact ⟨rfl, fun n => Function.update_apply _ _ _ _⟩

theorem BarrierLog.arrive_last (log : BarrierLog)
    (last : ¬ (log.rounds log.current).arrived + 1 < (log.rounds log.current).size) :
    log.arrive.current = log.current + 1 ∧ ∀ n, log.arrive.rounds n =
      if n = log.current + 1 then ⟨(log.rounds log.current).size, 0⟩ else if n = log.current then
        ⟨(log.rounds log.current).size, (log.rounds log.current).arrived + 1⟩ else log.rounds n := by
  rw [arrive, if_neg last]
  exact ⟨rfl, fun n => by simp only [Function.update_apply]⟩

/-- A thread is in the wait queue until its round is over. -/
theorem BarrierOk.mem_waitQueue_iff (ok : BarrierOk waits round log b) (waiting : waits t) :
    t ∈ b.waitQueue ↔ (log.rounds (round t)).arrived < (log.rounds (round t)).size := by
  constructor
  · intro member
    obtain ⟨_, same⟩ := (ok.queue t).mp member
    rw [same]
    refine ok.room.resolve_left fun empty => ?_
    have positive := List.length_pos_of_mem member
    rw [ok.arrived, empty] at positive
    exact lt_irrefl 0 positive
  · intro open_
    refine (ok.queue t).mpr ⟨waiting, ?_⟩
    by_contra other
    have past := ok.full (round t) (lt_of_le_of_ne (ok.bound t waiting) other)
    omega

theorem BarrierOk.barrierWait (ok : BarrierOk waits round log b) (counted : b.count = some k) (fresh : ¬ waits self)
    (enabled : enable self = true) (sync : ∀ t, waits t → enable t = !decide (t ∈ b.waitQueue)) :
    ∃ b' enable', b.barrierWait enable self = some (b', enable') ∧ b'.count = b.count ∧
      BarrierOk (fun t => waits t ∨ t = self) (Function.update round self log.current) log.arrive b' ∧
      (∀ t, waits t ∨ t = self → enable' t = !decide (t ∈ b'.waitQueue)) ∧
      ∀ t, ¬ (waits t ∨ t = self) → enable' t = enable t := by
  have away : self ∉ b.waitQueue := fun member => fresh ((ok.queue self).mp member).1
  have size := ok.size k counted
  by_cases more : b.waitQueue.length + 1 < k.toNat
  · have ran : b.barrierWait enable self = some ({ b with waitQueue := b.waitQueue ++ [self] },
        Function.update enable self false) := by
      simp only [BarrierInfo.barrierWait, counted, more, if_true, Option.bind_eq_bind, Option.bind_some, Option.pure_def]
    obtain ⟨current, rounds⟩ := BarrierLog.arrive_more log (by rw [← ok.arrived, size]; exact more)
    refine ⟨_, _, ran, rfl, ?_, fun t member => ?_, fun t outside => ?_⟩
    · refine ⟨?_, fun t => ?_, fun t member => ?_, ?_, ?_, ?_, fun n less => ?_⟩
      · exact List.nodup_append.mpr ⟨ok.distinct, List.nodup_singleton _, by
          rintro t member u single rfl
          exact away (List.mem_singleton.mp single ▸ member)⟩
      · rw [List.mem_append, List.mem_singleton, ok.queue, current]
        by_cases own : t = self
        · simp [own]
        · simp [own]
      · rw [current]
        by_cases own : t = self
        · simp [own]
        · simpa [own] using ok.bound t (member.resolve_right own)
      · simp [current, rounds, ok.arrived]
      · simpa [current, rounds] using ok.size
      · simp only [current, rounds, if_true, size, ← ok.arrived]
        exact Or.inr more
      · rw [current] at less
        simpa [rounds, Nat.ne_of_lt less] using ok.full n less
    · by_cases own : t = self
      · simp [own]
      · have waiting := member.resolve_right own
        simpa [own] using sync t waiting
    · exact Function.update_of_ne (fun own => outside (Or.inr own)) _ _
  · obtain ⟨enable', woken, sets⟩ := setAll_spec true enable ok.distinct fun t member => by
      simp [sync t ((ok.queue t).mp member).1, member]
    have ran : b.barrierWait enable self = some ({ b with waitQueue := [] }, enable') := by
      simp only [BarrierInfo.barrierWait, counted, more, if_false, wakeAll, woken, Option.bind_eq_bind, Option.bind_some,
        Option.pure_def]
    obtain ⟨current, rounds⟩ := BarrierLog.arrive_last log (by rw [← ok.arrived, size]; exact more)
    refine ⟨_, _, ran, rfl, ?_, fun t member => ?_, fun t outside => sets.outside t fun member => outside ?_⟩
    · have past (t : ThreadId) (member : waits t ∨ t = self) : Function.update round self log.current t ≤ log.current := by
        by_cases own : t = self
        · simp [own]
        · simpa [own] using ok.bound t (member.resolve_right own)
      refine ⟨List.nodup_nil, fun t => ?_, fun t member => ?_, ?_, ?_, ?_, fun n less => ?_⟩
      · simp only [List.not_mem_nil, false_iff, not_and, current]
        intro member same
        have bound := past t member
        omega
      · rw [current]
        exact (past t member).trans (Nat.le_succ _)
      · simp [current, rounds]
      · simpa [current, rounds] using ok.size
      · simp [current, rounds]
      · rw [current] at less
        rcases Nat.lt_succ_iff_lt_or_eq.mp less with older | rfl
        · simpa [rounds, Nat.ne_of_lt older, Nat.ne_of_lt less] using ok.full n older
        · simp only [rounds, if_neg (Nat.ne_of_lt less), if_true, size, ← ok.arrived]
          omega
    · by_cases queued : t ∈ b.waitQueue
      · simp [sets.inside t queued]
      · rw [sets.outside t queued]
        rcases member with waiting | rfl
        · simp [sync t waiting, queued]
        · simp [enabled]
    · exact Or.inl ((ok.queue t).mp member).1

theorem BarrierOk.barrierInit (ok : BarrierOk waits round log b) (empty : b.waitQueue = []) (count : BitVec 32) :
    BarrierOk waits round (log.init count.toNat) { b with count := some count } where
  distinct := ok.distinct
  queue := ok.queue
  bound := ok.bound
  arrived := by simp [BarrierLog.init, empty]
  size k same := by simpa [BarrierLog.init] using congrArg BitVec.toNat (Option.some.inj same)
  room := by simp [BarrierLog.init]
  full n less := by
    have older : n ≠ log.current := Nat.ne_of_lt less
    simpa [BarrierLog.init, Function.update_of_ne older] using ok.full n less

theorem BarrierOk.congr {round' : ThreadId → ℕ} (ok : BarrierOk waits round log b)
    (same : ∀ t, waits t → round' t = round t) : BarrierOk waits round' log b where
  distinct := ok.distinct
  queue t := (ok.queue t).trans (and_congr_right fun waiting => by rw [same t waiting])
  bound t waiting := (same t waiting).trans_le (ok.bound t waiting)
  arrived := ok.arrived
  size := ok.size
  room := ok.room
  full := ok.full

theorem BarrierOk.leave (ok : BarrierOk waits round log b) (away : self ∉ b.waitQueue) :
    BarrierOk (fun t => waits t ∧ t ≠ self) round log b where
  distinct := ok.distinct
  queue t := by
    rw [ok.queue]
    constructor
    · rintro ⟨waiting, same⟩
      refine ⟨⟨waiting, ?_⟩, same⟩
      rintro rfl
      exact away ((ok.queue t).mpr ⟨waiting, same⟩)
    · rintro ⟨⟨waiting, _⟩, same⟩
      exact ⟨waiting, same⟩
  bound t waiting := ok.bound t waiting.1
  arrived := ok.arrived
  size := ok.size
  room := ok.room
  full := ok.full

end Barriers

end Maple.Systematic
