import Maple.Race.Djit
import Maple.Race.Provenance

/-! What one hook does to the tables of Djit: stored clocks and instructions stay
within the lifetime of their address. -/
namespace Maple.Race

namespace Hook

/-- The hook stores the clock of thread `u` with the object at `x`. -/
def Publishes (kind : SyncObject) (x : Address) (u : ThreadId) : Hook → Prop
  | .beforePthreadMutexUnlock curr addr => kind = .mutex ∧ x = addr ∧ u = curr
  | .beforePthreadCondSignal curr addr | .beforePthreadCondBroadcast curr addr =>
    kind = .cond ∧ x = addr ∧ u = curr
  | .beforePthreadCondWait curr condAddr mutexAddr | .beforePthreadCondTimedwait curr condAddr mutexAddr =>
    (kind = .mutex ∧ x = mutexAddr ∨ kind = .cond ∧ x = condAddr) ∧ u = curr
  | .beforePthreadBarrierWait curr addr => kind = .barrier ∧ x = addr ∧ u = curr
  | _ => False

/-- Thread `u` takes in clocks that are stored with the object at `x`. -/
def Acquires (kind : SyncObject) (x : Address) (u : ThreadId) : Hook → Prop
  | .afterPthreadMutexLock curr addr => kind = .mutex ∧ x = addr ∧ u = curr
  | .afterPthreadCondWait curr condAddr mutexAddr | .afterPthreadCondTimedwait curr condAddr mutexAddr =>
    (kind = .mutex ∧ x = mutexAddr ∨ kind = .cond ∧ x = condAddr) ∧ u = curr
  | .afterPthreadBarrierWait curr addr => kind = .barrier ∧ x = addr ∧ u = curr
  | _ => False

/-- The objects that the hook works on. -/
def syncAddrs : Hook → List Address
  | .afterPthreadMutexLock _ addr | .beforePthreadMutexUnlock _ addr | .beforePthreadCondSignal _ addr
  | .beforePthreadCondBroadcast _ addr | .beforePthreadBarrierWait _ addr
  | .afterPthreadBarrierWait _ addr => [addr]
  | .beforePthreadCondWait _ condAddr mutexAddr | .afterPthreadCondWait _ condAddr mutexAddr
  | .beforePthreadCondTimedwait _ condAddr mutexAddr
  | .afterPthreadCondTimedwait _ condAddr mutexAddr => [condAddr, mutexAddr]
  | _ => []

def SyncAligned (unitSize : Address) (e : Hook) : Prop := ∀ x ∈ e.syncAddrs, IsUnit unitSize x

instance (unitSize : Address) (e : Hook) : Decidable (e.SyncAligned unitSize) :=
  List.decidableBAll _ _

end Hook

/-- The instructions in the tables of a unit are those of its accesses. -/
def MetaHolds (A : RaceEventType → Address → ThreadId → InstId → Prop) (x : Address) (m : DjitMeta) : Prop :=
  ∀ t inst, (m.writerInstTable[t]? = some inst → A .write x t inst) ∧
    (m.readerInstTable[t]? = some inst → A .read x t inst)

structure StateHolds (unitSize : Address) (S : SyncObject → Address → VectorClock → Prop)
    (A : RaceEventType → Address → ThreadId → InstId → Prop) (d : Detector Unit DjitMeta) : Prop where
  sync : SyncHolds unitSize S d.toDetectorBase
  metas : TableHolds unitSize (MetaHolds A) d.metaTable

section Check
variable {curr : ThreadId} {currVc vc : VectorClock} {table : OrdMap ThreadId InstId}
  {report : ThreadId → InstId → RaceReport} {calls : List DbCall} {raced : Bool}

/-- A report names a thread with an instruction in the table. -/
theorem reportEntries_inv {entries : List (ThreadId × ℕ)}
    (ran : reportEntries curr currVc table report entries = some calls) : ∀ call ∈ calls, ∃ t inst,
      curr ≠ t ∧ table[t]? = some inst ∧ call = .createRace (report t inst) := by
  induction entries generalizing calls with
  | nil =>
    cases ran
    simp
  | cons entry rest ih =>
    obtain ⟨thdId, clk⟩ := entry
    simp only [reportEntries] at ran
    split at ran
    · next unseen =>
      simp only [Option.bind_eq_bind, Option.bind_eq_some_iff, Option.pure_def, Option.some.injEq] at ran
      obtain ⟨inst, found, later, ran, rfl⟩ := ran
      intro call member
      rcases List.mem_cons.mp member with rfl | member
      · exact ⟨thdId, inst, unseen.1, found, rfl⟩
      · exact ih ran call member
    · exact ih ran

theorem checkAccesses_inv (ran : checkAccesses curr currVc vc table report = some (raced, calls)) :
    ∀ call ∈ calls, ∃ t inst, curr ≠ t ∧ table[t]? = some inst ∧ call = .createRace (report t inst) := by
  unfold checkAccesses at ran
  split at ran
  · cases ran
    simp
  · simp only [Option.bind_eq_bind, Option.bind_eq_some_iff, Option.pure_def, Option.some.injEq] at ran
    obtain ⟨calls', ran, same⟩ := ran
    cases same
    exact reportEntries_inv ran

end Check

/-- A report of hook `curr`, `inst` pairs its access with a known one of another thread. -/
def Pairs (A : RaceEventType → Address → ThreadId → InstId → Prop) (k : RaceEventType) (curr : ThreadId)
    (inst : InstId) (units : List Address) : DbCall → Prop
  | .createRace r => r.addr ∈ units ∧ r.t1 = curr ∧ r.i1 = inst ∧ r.p1 = k ∧ r.t0 ≠ curr ∧
    A r.p0 r.addr r.t0 r.i0
  | .setRacyInst _ => False

section Process
variable {A : RaceEventType → Address → ThreadId → InstId → Prop} {b : DetectorBase Unit}
  {curr : ThreadId} {iaddr : Address} {m m' : DjitMeta} {inst : InstId} {calls : List DbCall}
  {units : List Address}

theorem MetaHolds.processRead (holds : MetaHolds A iaddr m) (member : iaddr ∈ units)
    (now : A .read iaddr curr inst) (ran : Djit.processRead b curr iaddr m inst = some (m', calls)) :
    MetaHolds A iaddr m' ∧ ∀ call ∈ calls, Pairs A .read curr inst units call := by
  simp only [Djit.processRead, Option.bind_eq_bind, Option.bind_eq_some_iff, Option.pure_def,
    Option.some.injEq] at ran
  obtain ⟨currVc, -, ⟨raced, calls⟩, checked, same⟩ := ran
  cases same
  refine ⟨fun t i => ⟨(holds t i).1, fun found => ?_⟩, fun call made => ?_⟩
  · rw [getElem?_insert_thread] at found
    split at found
    · next own =>
      cases found
      exact own ▸ now
    · exact (holds t i).2 found
  · obtain ⟨t, i, other, found, rfl⟩ := checkAccesses_inv checked call made
    exact ⟨member, rfl, rfl, rfl, other.symm, (holds t i).1 found⟩

theorem MetaHolds.processWrite (holds : MetaHolds A iaddr m) (member : iaddr ∈ units)
    (now : A .write iaddr curr inst) (ran : Djit.processWrite b curr iaddr m inst = some (m', calls)) :
    MetaHolds A iaddr m' ∧ ∀ call ∈ calls, Pairs A .write curr inst units call := by
  simp only [Djit.processWrite, Option.bind_eq_bind, Option.bind_eq_some_iff, Option.pure_def,
    Option.some.injEq] at ran
  obtain ⟨currVc, -, ⟨raced, calls⟩, checked, ⟨racedReaders, moreCalls⟩, checkedReaders, same⟩ := ran
  cases same
  refine ⟨fun t i => ⟨fun found => ?_, (holds t i).2⟩, fun call made => ?_⟩
  · rw [getElem?_insert_thread] at found
    split at found
    · next own =>
      cases found
      exact own ▸ now
    · exact (holds t i).1 found
  · rcases List.mem_append.mp made with made | made
    · obtain ⟨t, i, other, found, rfl⟩ := checkAccesses_inv checked call made
      exact ⟨member, rfl, rfl, rfl, other.symm, (holds t i).1 found⟩
    · obtain ⟨t, i, other, found, rfl⟩ := checkAccesses_inv checkedReaders call made
      exact ⟨member, rfl, rfl, rfl, other.symm, (holds t i).2 found⟩

theorem MetaHolds.process {k : RaceEventType} (holds : MetaHolds A iaddr m) (member : iaddr ∈ units)
    (now : A k iaddr curr inst) (ran : djit.process k b curr iaddr m inst = some (m', calls)) :
    MetaHolds A iaddr m' ∧ ∀ call ∈ calls, Pairs A k curr inst units call := by
  cases k with
  | read => exact holds.processRead member now ran
  | write => exact holds.processWrite member now ran

end Process

section Sync
variable {debug : Bool} {unitSize : Address} {S : SyncObject → Address → VectorClock → Prop}
  {b b' : DetectorBase Unit} {e : Hook} {curr : ThreadId} {v : VectorClock}

theorem bind_assertIn_inv {V : Type} {condition : Prop} [Decidable condition] {rest : Option V} {result : V}
    (ran : (do assertIn debug condition; rest) = some result) :
    (debug = true → condition) ∧ rest = some result := by
  simp only [Option.bind_eq_bind, Option.bind_eq_some_iff] at ran
  obtain ⟨_, asserted, ran⟩ := ran
  exact ⟨(assertIn_eq_some _ _).mp asserted, ran⟩

theorem bind_assertIn {V : Type} {condition : Prop} [Decidable condition] {rest : Option V} {result : V}
    (ran : (do assertIn debug condition; rest) = some result) : rest = some result :=
  (bind_assertIn_inv ran).2

/-- The assertions check the alignment of the objects. -/
theorem units_of_asserted (asserts : debug = true) (unit : b.unitSize = unitSize)
    (ran : b.onHookIn debug djit e = some b') : e.SyncAligned unitSize := by
  have single : ∀ {addr : Address} {rest : Option (DetectorBase Unit)},
      (do assertIn debug (b.isAligned addr); rest) = some b' → ∀ x ∈ [addr], IsUnit unitSize x := by
    intro addr rest ran x member
    rw [List.mem_singleton.mp member]
    exact unit ▸ (bind_assertIn_inv ran).1 asserts
  have double : ∀ {first second : Address} {rest : Option (DetectorBase Unit)},
      (do assertIn debug (b.isAligned second); assertIn debug (b.isAligned first); rest) = some b' →
      ∀ x ∈ [first, second], IsUnit unitSize x := by
    intro first second rest ran x member
    obtain ⟨aligned, ran⟩ := bind_assertIn_inv ran
    rcases List.mem_cons.mp member with rfl | member
    · exact unit ▸ (bind_assertIn_inv ran).1 asserts
    · rw [List.mem_singleton.mp member]
      exact unit ▸ aligned asserts
  cases e with
  | afterPthreadMutexLock | beforePthreadMutexUnlock | beforePthreadCondSignal | beforePthreadCondBroadcast
  | beforePthreadBarrierWait | afterPthreadBarrierWait => exact single ran
  | beforePthreadCondWait | afterPthreadCondWait | beforePthreadCondTimedwait | afterPthreadCondTimedwait =>
    exact double ran
  | _ => exact fun x none => nomatch none

/-- Hooks that store a clock. -/
theorem SyncHolds.publish (holds : SyncHolds unitSize S b) (units : e.SyncAligned unitSize)
    (source : ∀ kind x u v, e.Publishes kind x u → b.currVcMap[u]? = some v →
      S kind x v ∧ S kind x (v.increment u)) (publishes : ∃ kind x u, e.Publishes kind x u)
    (ran : b.onHookIn debug djit e = some b') : SyncHolds unitSize S b' ∧ b.SameSettings b' := by
  obtain ⟨_, _, _, publishes⟩ := publishes
  cases e with
  | beforePthreadMutexUnlock curr addr =>
    have unit := units addr (by simp [Hook.syncAddrs])
    exact holds.unlock unit
      (fun v found => (source .mutex addr curr v ⟨rfl, rfl, rfl⟩ found).1) (bind_assertIn ran)
  | beforePthreadCondSignal curr addr | beforePthreadCondBroadcast curr addr =>
    exact holds.processNotify (units addr (by simp [Hook.syncAddrs]))
      (fun v found => (source .cond addr curr v ⟨rfl, rfl, rfl⟩ found).1) (bind_assertIn ran)
  | beforePthreadCondWait curr condAddr mutexAddr | beforePthreadCondTimedwait curr condAddr mutexAddr =>
    have unit := units mutexAddr (by simp [Hook.syncAddrs])
    obtain ⟨released, unlocked, ran⟩ := Option.bind_eq_some_iff.mp (bind_assertIn (bind_assertIn ran))
    obtain ⟨held, settings⟩ := holds.unlock unit
      (fun v found => (source .mutex mutexAddr curr v ⟨Or.inl ⟨rfl, rfl⟩, rfl⟩ found).1) unlocked
    obtain ⟨held, settings'⟩ := held.processPreWait (units condAddr (by simp [Hook.syncAddrs]))
      (fun w found => by
        obtain ⟨v, before, rfl⟩ := SyncHolds.clock_of_processUnlock unlocked found
        exact (source .cond condAddr curr v ⟨Or.inr ⟨rfl, rfl⟩, rfl⟩ before).2) ran
    exact ⟨held, settings.trans settings'⟩
  | beforePthreadBarrierWait curr addr =>
    exact holds.processPreBarrier (units addr (by simp [Hook.syncAddrs]))
      (fun v found => (source .barrier addr curr v ⟨rfl, rfl, rfl⟩ found).1) (bind_assertIn ran)
  | _ => exact publishes.elim

/-- Hooks that take in a clock. Behind a barrier the thread has its next clock. -/
theorem SyncHolds.acquire (holds : SyncHolds unitSize S b) (units : e.SyncAligned unitSize)
    (acquires : ∃ kind x, e.Acquires kind x curr) (found : b.currVcMap[curr]? = some v)
    (ran : b.onHookIn debug djit e = some b') : SyncHolds unitSize S b' ∧ b.SameSettings b' ∧
      ∃ v', (b'.currVcMap[curr]? = some v' ∨ b'.currVcMap[curr]? = some (v'.increment curr)) ∧
        Gains (fun c => ∃ kind x, e.Acquires kind x curr ∧ S kind x c) v v' := by
  obtain ⟨_, _, acquires⟩ := acquires
  cases e with
  | afterPthreadMutexLock t addr =>
    obtain ⟨-, -, rfl⟩ := acquires
    obtain ⟨held, settings, v', after, gains⟩ :=
      holds.lock (units addr (by simp [Hook.syncAddrs])) found (bind_assertIn ran)
    exact ⟨held, settings, v', Or.inl after, gains.mono fun c source => ⟨_, _, ⟨rfl, rfl, rfl⟩, source⟩⟩
  | afterPthreadCondWait t condAddr mutexAddr | afterPthreadCondTimedwait t condAddr mutexAddr =>
    obtain ⟨-, rfl⟩ := acquires
    obtain ⟨woken, waited, ran⟩ := Option.bind_eq_some_iff.mp (bind_assertIn (bind_assertIn ran))
    obtain ⟨held, settings, v', after, gains⟩ :=
      holds.processPostWait (units condAddr (by simp [Hook.syncAddrs])) found waited
    obtain ⟨held, settings', v'', after', gains'⟩ :=
      held.lock (units mutexAddr (by simp [Hook.syncAddrs])) after ran
    refine ⟨held, settings.trans settings', v'', Or.inl after', (?_ : Gains _ v v').trans ?_⟩
    · exact gains.mono fun c source => ⟨_, _, ⟨Or.inr ⟨rfl, rfl⟩, rfl⟩, source⟩
    · exact gains'.mono fun c source => ⟨_, _, ⟨Or.inl ⟨rfl, rfl⟩, rfl⟩, source⟩
  | afterPthreadBarrierWait t addr =>
    obtain ⟨-, -, rfl⟩ := acquires
    obtain ⟨held, settings, v', after, gains⟩ :=
      holds.processPostBarrier (units addr (by simp [Hook.syncAddrs])) found (bind_assertIn ran)
    exact ⟨held, settings, v', Or.inr after, gains.mono fun c source => ⟨_, _, ⟨rfl, rfl, rfl⟩, source⟩⟩
  | _ => exact acquires.elim

end Sync

namespace StateHolds
variable {unitSize addr size : Address} {S T : SyncObject → Address → VectorClock → Prop}
  {A B : RaceEventType → Address → ThreadId → InstId → Prop} {d d' : Detector Unit DjitMeta}
  {out : List DbCall} {curr : ThreadId} {inst : InstId} {k : RaceEventType}

theorem mono (holds : StateHolds unitSize S A d) (clocks : ∀ kind x c, S kind x c → T kind x c)
    (insts : ∀ k x t i, A k x t i → B k x t i) : StateHolds unitSize T B d where
  sync := holds.sync.mono clocks
  metas := holds.metas.mono fun _ _ held t i => ⟨fun found => insts _ _ _ _ ((held t i).1 found),
    fun found => insts _ _ _ _ ((held t i).2 found)⟩

/-- An access to the units of a range. -/
theorem beforeMem (holds : StateHolds unitSize S A d) (areUnits : ∀ x ∈ unitsOf d.unitSize addr size,
    IsUnit unitSize x ∧ A k x curr inst)
    (ran : d.beforeMem djit (djit.process k) curr inst addr size = some (d', out)) :
    StateHolds unitSize S A d' ∧ d'.toDetectorBase = d.toDetectorBase ∧
      ∀ call ∈ out, Pairs A k curr inst (unitsOf d.unitSize addr size) call := by
  unfold Detector.beforeMem at ran
  split at ran
  · simp only [Option.bind_eq_bind, Option.bind_eq_some_iff, Option.pure_def, Option.some.injEq] at ran
    obtain ⟨⟨table, outs⟩, looped, same⟩ := ran
    cases same
    obtain ⟨tables, calls⟩ := holds.metas.accessLoop (fun _ member => (areUnits _ member).1)
      (fun _ t i => ⟨fun none => by simp [djit] at none, fun none => by simp [djit] at none⟩)
      (fun _ member v v' out held processed => held.process member (areUnits _ member).2 processed) looped
    exact ⟨⟨holds.sync, tables⟩, rfl, calls⟩
  · cases ran
    exact ⟨holds, rfl, by simp⟩

/-- A release: what is left is outside the released units. -/
theorem freeAddrRegion (holds : StateHolds unitSize S A d) (K : Address → Prop)
    (kept : ∀ x, IsUnit unitSize x → addr = 0 ∨ x ∉ unitsOf d.unitSize addr (d.filter.removeRegion addr).1 → K x) :
    StateHolds unitSize (fun kind x c => S kind x c ∧ K x) (fun k x t i => A k x t i ∧ K x)
      (d.freeAddrRegion djit addr).1 := by
  have mutex : ∀ x (m : MutexMeta), K x → Drawn (S .mutex x) m.vc →
      Drawn (fun c => S .mutex x c ∧ K x) m.vc :=
    fun x m keeps drawn => drawn.mono fun c source => ⟨source, keeps⟩
  have metas : ∀ x m, K x → MetaHolds A x m → MetaHolds (fun k x t i => A k x t i ∧ K x) x m :=
    fun x m keeps held t i => ⟨fun found => ⟨(held t i).1 found, keeps⟩, fun found => ⟨(held t i).2 found, keeps⟩⟩
  unfold Detector.freeAddrRegion
  split
  · next null =>
    have all : ∀ x, IsUnit unitSize x → K x := fun x unit => kept x unit (Or.inl null)
    refine ⟨⟨?_, ?_, ?_⟩, ?_⟩
    · exact holds.sync.mutex.imp fun x m unit => mutex x m (all x unit)
    · exact holds.sync.cond.imp fun x m unit drawn t vc stored =>
        (drawn t vc stored).mono fun c source => ⟨source, all x unit⟩
    · exact holds.sync.barrier.imp fun x m unit drawn t vc stored =>
        (drawn t vc stored).mono fun c source => ⟨source, all x unit⟩
    · exact holds.metas.imp fun x m unit => metas x m (all x unit)
  · have outside : ∀ x, x ∉ unitsOf d.unitSize addr (d.filter.removeRegion addr).1 → IsUnit unitSize x → K x :=
      fun x apart unit => kept x unit (Or.inr apart)
    refine ⟨⟨?_, ?_, ?_⟩, ?_⟩
    · exact holds.sync.mutex.freeLoop _ fun x m apart unit => mutex x m (outside x apart unit)
    · exact holds.sync.cond.freeLoop _ fun x m apart unit drawn t vc stored =>
        (drawn t vc stored).mono fun c source => ⟨source, outside x apart unit⟩
    · exact holds.sync.barrier.freeLoop _ fun x m apart unit drawn t vc stored =>
        (drawn t vc stored).mono fun c source => ⟨source, outside x apart unit⟩
    · exact holds.metas.freeLoop _ fun x m apart unit => metas x m (outside x apart unit)

/-- A hook that works on the tables of synchronisation alone. -/
theorem onBase (holds : StateHolds unitSize S A d) {b : DetectorBase Unit} (sync : SyncHolds unitSize S b) :
    StateHolds unitSize S A (d.onBase b) := ⟨sync, holds.metas⟩

end StateHolds
end Maple.Race
