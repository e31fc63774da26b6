import Maple.Core.Units
import Maple.Race.Builds
import Maple.Race.Lifetimes

/-! Where clocks come from. Every entry of a clock that is stored with a
synchronisation object was an entry of a clock that some thread put there. -/
namespace Maple.Race

/-- Every entry above zero is that of a source. -/
def Drawn (S : VectorClock → Prop) (vc : VectorClock) : Prop :=
  ∀ u, vc.getClock u = 0 ∨ ∃ c, S c ∧ c.getClock u = vc.getClock u

/-- What a thread sees in its new clock it saw before, or it is from a source. -/
def Gains (S : VectorClock → Prop) (vc vc' : VectorClock) : Prop :=
  ∀ u, vc'.getClock u = vc.getClock u ∨ ∃ c, S c ∧ c.getClock u = vc'.getClock u

section
variable {S T : VectorClock → Prop} {vc vc' vc'' : VectorClock}

theorem Drawn.mono (drawn : Drawn S vc) (implied : ∀ c, S c → T c) : Drawn T vc := by
  intro u
  obtain none | ⟨c, source, same⟩ := drawn u
  · exact Or.inl none
  · exact Or.inr ⟨c, implied c source, same⟩

theorem Drawn.of_source (source : S vc) : Drawn S vc := fun _ => Or.inr ⟨vc, source, rfl⟩

theorem drawn_empty : Drawn S {} := fun u => Or.inl (VectorClock.getClock_empty u)

theorem Drawn.join (drawn : Drawn S vc) (other : Drawn S vc') : Drawn S (vc.join vc') := by
  intro u
  rw [VectorClock.getClock_join]
  rcases max_choice (vc.getClock u) (vc'.getClock u) with same | same
  · rw [same]
    exact drawn u
  · rw [same]
    exact other u

theorem Drawn.foldl_join {entries : List (ThreadId × VectorClock)} (drawn : Drawn S vc)
    (each : ∀ entry ∈ entries, Drawn S entry.2) :
    Drawn S (entries.foldl (fun vc entry => vc.join entry.2) vc) := by
  induction entries generalizing vc with
  | nil => exact drawn
  | cons entry rest ih =>
    obtain ⟨first, others⟩ := List.forall_mem_cons.mp each
    exact ih (drawn.join first) others

theorem Gains.refl (vc : VectorClock) : Gains S vc vc := fun _ => Or.inl rfl

theorem Gains.trans (first : Gains S vc vc') (second : Gains S vc' vc'') : Gains S vc vc'' := by
  intro u
  rcases second u with same | source
  · rw [same]
    exact first u
  · exact Or.inr source

theorem Gains.mono (gains : Gains S vc vc') (implied : ∀ c, S c → T c) : Gains T vc vc' := by
  intro u
  obtain same | ⟨c, source, same⟩ := gains u
  · exact Or.inl same
  · exact Or.inr ⟨c, implied c source, same⟩

theorem Drawn.gains (drawn : Drawn S vc') (vc : VectorClock) : Gains S vc (vc.join vc') := by
  intro u
  rw [VectorClock.getClock_join]
  rcases drawn u with none | ⟨c, source, same⟩
  · rw [none, Nat.max_zero]
    exact Or.inl rfl
  · rcases max_choice (vc.getClock u) (vc'.getClock u) with larger | larger
    · exact Or.inl larger
    · exact Or.inr ⟨c, source, same.trans larger.symm⟩

end

/-- The entries of a table are at units and satisfy `P`. -/
def TableHolds {V : Type} (unitSize : Address) (P : Address → V → Prop) (table : OrdMap Address V) : Prop :=
  ∀ x v, table[x]? = some v → IsUnit unitSize x ∧ P x v

namespace TableHolds
variable {V : Type} {unitSize x : Address} {P Q : Address → V → Prop} {table : OrdMap Address V} {v fresh : V}

theorem empty : TableHolds unitSize P (∅ : OrdMap Address V) := fun x v none => by simp at none

theorem imp (holds : TableHolds unitSize P table) (implied : ∀ x v, IsUnit unitSize x → P x v → Q x v) :
    TableHolds unitSize Q table := by
  intro x v found
  obtain ⟨unit, held⟩ := holds x v found
  exact ⟨unit, implied x v unit held⟩

theorem mono (holds : TableHolds unitSize P table) (implied : ∀ x v, P x v → Q x v) :
    TableHolds unitSize Q table :=
  holds.imp fun x v _ => implied x v

theorem insert (holds : TableHolds unitSize P table) (unit : IsUnit unitSize x) (new : P x v) :
    TableHolds unitSize P (table.insert x v) := by
  intro y w found
  rw [getElem?_insert_address] at found
  split at found
  · next same =>
    cases found
    exact same ▸ ⟨unit, new⟩
  · exact holds y w found

theorem getD (holds : TableHolds unitSize P table) (new : P x fresh) : P x (table[x]?.getD fresh) := by
  cases found : table[x]? with
  | none => exact new
  | some v => exact (holds x v found).2

theorem ensureMeta (holds : TableHolds unitSize P table) (unit : IsUnit unitSize x) (new : P x fresh) :
    TableHolds unitSize P (ensureMeta fresh table x) := by
  unfold Race.ensureMeta
  split
  · exact holds
  · exact holds.insert unit new

/-- What is left of a table is outside the freed units. -/
theorem freeLoop (holds : TableHolds unitSize P table) (processFree : V → List DbCall) {units : List Address}
    (kept : ∀ x v, x ∉ units → IsUnit unitSize x → P x v → Q x v) :
    TableHolds unitSize Q (freeLoop processFree units table).1 := by
  intro x v found
  rw [(freeLoop_spec processFree units table).1] at found
  split at found
  · exact nomatch found
  · next outside =>
    obtain ⟨unit, held⟩ := holds x v found
    exact ⟨unit, kept x v outside unit held⟩

/-- The loop over the units of an access. -/
theorem accessLoop {newMeta : V} {process : Address → V → Option (V × List DbCall)} {Good : DbCall → Prop}
    {units : List Address} (areUnits : ∀ x ∈ units, IsUnit unitSize x) (new : ∀ x, P x newMeta)
    (each : ∀ x ∈ units, ∀ v v' out, P x v → process x v = some (v', out) → P x v' ∧ ∀ call ∈ out, Good call)
    (holds : TableHolds unitSize P table) {last : OrdMap Address V} {outs : List DbCall}
    (ran : accessLoop newMeta process units table = some (last, outs)) :
    TableHolds unitSize P last ∧ ∀ call ∈ outs, Good call := by
  induction units generalizing table outs with
  | nil =>
    cases ran
    exact ⟨holds, by simp⟩
  | cons iaddr rest ih =>
    simp only [Race.accessLoop, Option.bind_eq_bind, Option.bind_eq_some_iff, Option.pure_def] at ran
    obtain ⟨⟨changed, out⟩, processed, ⟨table', outs'⟩, looped, same⟩ := ran
    cases same
    obtain ⟨changedHolds, good⟩ :=
      each iaddr List.mem_cons_self _ _ _ (holds.getD (new iaddr)) processed
    obtain ⟨lastHolds, goods⟩ := ih (fun x member => areUnits x (List.mem_cons_of_mem _ member))
      (fun x member => each x (List.mem_cons_of_mem _ member))
      (holds.insert (areUnits iaddr List.mem_cons_self) changedHolds) looped
    refine ⟨lastHolds, fun call made => ?_⟩
    rcases List.mem_append.mp made with made | made
    · exact good call made
    · exact goods call made

end TableHolds

theorem of_getElem?_erase {V : Type} {table : OrdMap ThreadId V} {t u : ThreadId} {v : V}
    (found : (table.erase t)[u]? = some v) : table[u]? = some v := by
  rw [Std.ExtTreeMap.getElem?_erase] at found
  split at found
  · exact nomatch found
  · exact found

/-- The loop that hands the joined clock to every waiter. -/
theorem of_foldl_insert {V : Type} {entries : List (ThreadId × V)} {new v : V} {t : ThreadId}
    {table : OrdMap ThreadId V}
    (found : (entries.foldl (fun table entry => table.insert entry.1 new) table)[t]? = some v) :
    v = new ∨ table[t]? = some v := by
  induction entries generalizing table with
  | nil => exact Or.inr found
  | cons entry rest ih =>
    rcases ih found with same | before
    · exact Or.inl same
    · rw [getElem?_insert_thread] at before
      split at before
      · exact Or.inl (Option.some.inj before).symm
      · exact Or.inr before

inductive SyncObject where
  | mutex
  | cond
  | barrier
  deriving DecidableEq

def BarrierMeta.Stores (m : BarrierMeta) (t : ThreadId) (vc : VectorClock) : Prop :=
  ∃ flag, m.barrierWaitTable1[t]? = some (vc, flag) ∨ m.barrierWaitTable2[t]? = some (vc, flag)

namespace BarrierMeta
variable {m : BarrierMeta} {curr t : ThreadId} {currVc vc : VectorClock} {flag debug : Bool}

theorem stores_of_preTable (stored : m.preTable[t]? = some (vc, flag)) : m.Stores t vc := by
  unfold preTable at stored
  split at stored
  · exact ⟨flag, Or.inl stored⟩
  · exact ⟨flag, Or.inr stored⟩

theorem stores_of_postTable {entry : VectorClock × Bool} (stored : m.postTable[t]? = some entry) :
    m.Stores t entry.1 := by
  unfold postTable at stored
  split at stored
  · exact ⟨entry.2, Or.inl stored⟩
  · exact ⟨entry.2, Or.inr stored⟩

theorem Stores.of_setPreTable {table : OrdMap ThreadId (VectorClock × Bool)}
    (stored : (m.setPreTable table).Stores t vc) : (∃ flag, table[t]? = some (vc, flag)) ∨ m.Stores t vc := by
  unfold setPreTable at stored
  split at stored
  · obtain ⟨flag, first | second⟩ := stored
    · exact Or.inl ⟨flag, first⟩
    · exact Or.inr ⟨flag, Or.inr second⟩
  · obtain ⟨flag, first | second⟩ := stored
    · exact Or.inr ⟨flag, Or.inl first⟩
    · exact Or.inl ⟨flag, second⟩

theorem Stores.of_setPostTable {table : OrdMap ThreadId (VectorClock × Bool)}
    (stored : (m.setPostTable table).Stores t vc) : (∃ flag, table[t]? = some (vc, flag)) ∨ m.Stores t vc := by
  unfold setPostTable at stored
  split at stored
  · obtain ⟨flag, first | second⟩ := stored
    · exact Or.inl ⟨flag, first⟩
    · exact Or.inr ⟨flag, Or.inr second⟩
  · obtain ⟨flag, first | second⟩ := stored
    · exact Or.inr ⟨flag, Or.inl first⟩
    · exact Or.inl ⟨flag, second⟩

theorem Stores.of_processPre (stored : (m.processPre curr currVc).Stores t vc) :
    vc = currVc ∨ m.Stores t vc := by
  rcases stored.of_setPreTable with ⟨flag, entry⟩ | before
  · rw [getElem?_insert_thread] at entry
    split at entry
    · cases entry
      exact Or.inl rfl
    · exact Or.inr (stores_of_preTable entry)
  · exact Or.inr before

theorem Stores.of_settle {scan : Scan} (stored : (m.settle scan).Stores t vc) :
    (∃ flag, scan.table[t]? = some (vc, flag)) ∨ m.Stores t vc := by
  let flagged := m.setPostTable scan.table
  let switched := if scan.allNotFlagged then { flagged with preUsingTable1 := !flagged.preUsingTable1 }
    else flagged
  have settled : m.settle scan = if scan.allFlagged then
      { switched.setPostTable ∅ with postUsingTable1 := !switched.postUsingTable1 } else switched := rfl
  have kept : switched.Stores t vc → flagged.Stores t vc := by
    intro stored
    simp only [switched] at stored
    split at stored
    · exact stored
    · exact stored
  rw [settled] at stored
  split at stored
  · have cleared : (switched.setPostTable ∅).Stores t vc := stored
    rcases cleared.of_setPostTable with ⟨flag, none⟩ | before
    · simp at none
    · exact (kept before).of_setPostTable
  · exact (kept stored).of_setPostTable

/-- The loop of `ProcessPostBarrier` takes in the stored clocks and keeps them. -/
theorem scan_gains {S : VectorClock → Prop} {entries : List (ThreadId × (VectorClock × Bool))}
    (each : ∀ entry ∈ entries, Drawn S entry.2.1) {scan last : Scan}
    (ran : entries.foldlM (scanEntryIn debug curr) scan = some last) :
    Gains S scan.currVc last.currVc ∧ ∀ (t : ThreadId) vc flag, last.table[t]? = some (vc, flag) →
      Drawn S vc ∨ ∃ flag', scan.table[t]? = some (vc, flag') := by
  induction entries generalizing scan with
  | nil =>
    cases ran
    exact ⟨.refl _, fun t vc flag stored => Or.inr ⟨flag, stored⟩⟩
  | cons entry rest ih =>
    simp only [List.foldlM_cons, Option.bind_eq_bind, Option.bind_eq_some_iff] at ran
    obtain ⟨next, entered, ran⟩ := ran
    obtain ⟨drawn, others⟩ := List.forall_mem_cons.mp each
    obtain ⟨later, tables⟩ := ih others ran
    simp only [scanEntryIn, Option.bind_eq_bind, Option.pure_def] at entered
    split at entered
    · obtain ⟨_, -, same⟩ := Option.bind_eq_some_iff.mp entered
      cases same
      refine ⟨(drawn.gains _).trans later, fun t vc flag stored => ?_⟩
      rcases tables t vc flag stored with known | ⟨flag', stored⟩
      · exact Or.inl known
      · rw [getElem?_insert_thread] at stored
        split at stored
        · cases stored
          exact Or.inl drawn
        · exact Or.inr ⟨flag', stored⟩
    · cases entered
      exact ⟨(drawn.gains _).trans later, tables⟩

end BarrierMeta

/-- The clocks stored with an object are drawn from the sources of its address. -/
structure SyncHolds {G : Type} (unitSize : Address) (S : SyncObject → Address → VectorClock → Prop)
    (b : DetectorBase G) : Prop where
  mutex : TableHolds unitSize (fun x m => Drawn (S .mutex x) m.vc) b.mutexMetaTable
  cond : TableHolds unitSize (fun x (m : CondMeta) => ∀ (t : ThreadId) vc,
    m.waitTable[t]? = some vc ∨ m.signalTable[t]? = some vc → Drawn (S .cond x) vc) b.condMetaTable
  barrier : TableHolds unitSize (fun x (m : BarrierMeta) => ∀ t vc, m.Stores t vc → Drawn (S .barrier x) vc)
    b.barrierMetaTable

namespace SyncHolds
variable {G : Type} {unitSize addr : Address} {S T : SyncObject → Address → VectorClock → Prop}
  {b b' : DetectorBase G} {curr : ThreadId} {v : VectorClock}

theorem of_eq (holds : SyncHolds unitSize S b) (mutex : b'.mutexMetaTable = b.mutexMetaTable)
    (cond : b'.condMetaTable = b.condMetaTable) (barrier : b'.barrierMetaTable = b.barrierMetaTable) :
    SyncHolds unitSize S b' :=
  ⟨mutex ▸ holds.mutex, cond ▸ holds.cond, barrier ▸ holds.barrier⟩

theorem mono (holds : SyncHolds unitSize S b) (implied : ∀ kind x c, S kind x c → T kind x c) :
    SyncHolds unitSize T b where
  mutex := holds.mutex.mono fun x _ drawn => drawn.mono (implied .mutex x)
  cond := holds.cond.mono fun x _ drawn t vc stored => (drawn t vc stored).mono (implied .cond x)
  barrier := holds.barrier.mono fun x _ drawn t vc stored => (drawn t vc stored).mono (implied .barrier x)

theorem condAt (holds : SyncHolds unitSize S b) (addr : Address) (t : ThreadId) (vc : VectorClock)
    (stored : (b.condMetaTable[addr]?.getD {}).waitTable[t]? = some vc ∨
      (b.condMetaTable[addr]?.getD {}).signalTable[t]? = some vc) : Drawn (S .cond addr) vc := by
  refine holds.cond.getD ?_ t vc stored
  simp

theorem barrierAt (holds : SyncHolds unitSize S b) (addr : Address) (t : ThreadId) (vc : VectorClock)
    (stored : (b.barrierMetaTable[addr]?.getD {}).Stores t vc) : Drawn (S .barrier addr) vc := by
  refine holds.barrier.getD ?_ t vc stored
  simp [BarrierMeta.Stores]

theorem ensureMutex (holds : SyncHolds unitSize S b) (unit : IsUnit unitSize addr) :
    SyncHolds unitSize S { b with mutexMetaTable := ensureMeta {} b.mutexMetaTable addr } :=
  { holds with mutex := holds.mutex.ensureMeta unit drawn_empty }

theorem processLock (holds : SyncHolds unitSize S b) (found : b.currVcMap[curr]? = some v)
    (result : b.processLock curr addr = some b') :
    SyncHolds unitSize S b' ∧ b.SameSettings b' ∧
      ∃ v', b'.currVcMap[curr]? = some v' ∧ Gains (S .mutex addr) v v' := by
  simp only [DetectorBase.processLock, found, Option.bind_eq_bind, Option.bind_some, Option.pure_def,
    Option.some.injEq] at result
  subst result
  refine ⟨holds.of_eq rfl rfl rfl, ⟨rfl, rfl, rfl⟩, _, by simp [DetectorBase.setVc]; rfl, ?_⟩
  exact (holds.mutex.getD drawn_empty).gains v

theorem processUnlock (holds : SyncHolds unitSize S b) (unit : IsUnit unitSize addr)
    (source : ∀ v, b.currVcMap[curr]? = some v → S .mutex addr v)
    (result : b.processUnlock curr addr = some b') : SyncHolds unitSize S b' ∧ b.SameSettings b' := by
  simp only [DetectorBase.processUnlock, Option.bind_eq_bind, Option.bind_eq_some_iff, Option.pure_def,
    Option.some.injEq] at result
  obtain ⟨v, found, rfl⟩ := result
  exact ⟨{ holds with mutex := holds.mutex.insert unit (.of_source (source v found)) }, rfl, rfl, rfl⟩

/-- `GetMutexMeta`, then `ProcessLock`. -/
theorem lock (holds : SyncHolds unitSize S b) (unit : IsUnit unitSize addr)
    (found : b.currVcMap[curr]? = some v) (result : DetectorBase.processLock
      { b with mutexMetaTable := Race.ensureMeta {} b.mutexMetaTable addr } curr addr = some b') :
    SyncHolds unitSize S b' ∧ b.SameSettings b' ∧
      ∃ v', b'.currVcMap[curr]? = some v' ∧ Gains (S .mutex addr) v v' := by
  obtain ⟨held, settings, gained⟩ := (holds.ensureMutex unit).processLock found result
  exact ⟨held, ⟨settings.filter, settings.unitSize, settings.trackRacyInst⟩, gained⟩

/-- `GetMutexMeta`, then `ProcessUnlock`. -/
theorem unlock (holds : SyncHolds unitSize S b) (unit : IsUnit unitSize addr)
    (source : ∀ v, b.currVcMap[curr]? = some v → S .mutex addr v) (result : DetectorBase.processUnlock
      { b with mutexMetaTable := Race.ensureMeta {} b.mutexMetaTable addr } curr addr = some b') :
    SyncHolds unitSize S b' ∧ b.SameSettings b' := by
  obtain ⟨held, settings⟩ := (holds.ensureMutex unit).processUnlock unit source result
  exact ⟨held, settings.filter, settings.unitSize, settings.trackRacyInst⟩

theorem clock_of_processUnlock {w : VectorClock} (result : b.processUnlock curr addr = some b')
    (found : b'.currVcMap[curr]? = some w) : ∃ v, b.currVcMap[curr]? = some v ∧ w = v.increment curr := by
  simp only [DetectorBase.processUnlock, Option.bind_eq_bind, Option.bind_eq_some_iff, Option.pure_def,
    Option.some.injEq] at result
  obtain ⟨v, before, rfl⟩ := result
  have after : some (v.increment curr) = some w := by simpa [DetectorBase.setVc] using found
  exact ⟨v, before, (Option.some.inj after).symm⟩

theorem processPreWait (holds : SyncHolds unitSize S b) (unit : IsUnit unitSize addr)
    (source : ∀ v, b.currVcMap[curr]? = some v → S .cond addr v)
    (result : b.processPreWait curr addr = some b') : SyncHolds unitSize S b' ∧ b.SameSettings b' := by
  simp only [DetectorBase.processPreWait, Option.bind_eq_bind, Option.bind_eq_some_iff, Option.pure_def,
    Option.some.injEq] at result
  obtain ⟨v, found, rfl⟩ := result
  have old := holds.condAt addr
  refine ⟨{ holds with cond := holds.cond.insert unit fun t vc stored => ?_ }, rfl, rfl, rfl⟩
  simp only [getElem?_insert_thread] at stored
  split at stored
  · rcases stored with same | signalled
    · cases same
      exact .of_source (source v found)
    · exact old t vc (Or.inr signalled)
  · exact old t vc stored

theorem processPostWait (holds : SyncHolds unitSize S b) (unit : IsUnit unitSize addr)
    (found : b.currVcMap[curr]? = some v) (result : b.processPostWait curr addr = some b') :
    SyncHolds unitSize S b' ∧ b.SameSettings b' ∧
      ∃ v', b'.currVcMap[curr]? = some v' ∧ Gains (S .cond addr) v v' := by
  have old := holds.condAt addr
  simp only [DetectorBase.processPostWait, found, Option.bind_eq_bind, Option.bind_some,
    Option.bind_eq_some_iff, Option.pure_def] at result
  obtain ⟨_, -, result⟩ := result
  split at result
  · cases result
    refine ⟨{ holds with cond := holds.cond.insert unit fun t vc stored => old t vc ?_ },
      ⟨rfl, rfl, rfl⟩, v, found, .refl v⟩
    exact stored.imp_left of_getElem?_erase
  · next vc signalled =>
    cases result
    refine ⟨{ holds with cond := holds.cond.insert unit fun t vc stored => old t vc ?_ },
      ⟨rfl, rfl, rfl⟩, _, by simp [DetectorBase.setVc], (old curr vc (Or.inr signalled)).gains v⟩
    exact stored.imp of_getElem?_erase of_getElem?_erase

theorem processNotify (holds : SyncHolds unitSize S b) (unit : IsUnit unitSize addr)
    (source : ∀ v, b.currVcMap[curr]? = some v → S .cond addr v)
    (result : b.processNotify curr addr = some b') : SyncHolds unitSize S b' ∧ b.SameSettings b' := by
  simp only [DetectorBase.processNotify, Option.bind_eq_bind, Option.bind_eq_some_iff, Option.pure_def,
    Option.some.injEq] at result
  obtain ⟨v, found, rfl⟩ := result
  have old := holds.condAt addr
  have joined := Drawn.foldl_join (Drawn.of_source (source v found)) fun entry member =>
    old entry.1 entry.2 (Or.inl (Std.ExtTreeMap.mem_toList_iff_getElem?_eq_some.mp member))
  refine ⟨{ holds with cond := holds.cond.insert unit fun t vc stored => ?_ }, rfl, rfl, rfl⟩
  rcases stored with waiting | signalled
  · exact old t vc (Or.inl waiting)
  · rcases of_foldl_insert signalled with rfl | before
    · exact joined
    · exact old t vc (Or.inr before)

theorem processPreBarrier (holds : SyncHolds unitSize S b) (unit : IsUnit unitSize addr)
    (source : ∀ v, b.currVcMap[curr]? = some v → S .barrier addr v)
    (result : b.processPreBarrier curr addr = some b') : SyncHolds unitSize S b' ∧ b.SameSettings b' := by
  simp only [DetectorBase.processPreBarrier, Option.bind_eq_bind, Option.bind_eq_some_iff, Option.pure_def,
    Option.some.injEq] at result
  obtain ⟨v, found, rfl⟩ := result
  have old := holds.barrierAt addr
  refine ⟨{ holds with barrier := holds.barrier.insert unit fun t vc stored => ?_ }, rfl, rfl, rfl⟩
  rcases stored.of_processPre with rfl | before
  · exact .of_source (source _ found)
  · exact old t vc before

theorem processPostBarrier {debug : Bool} (holds : SyncHolds unitSize S b) (unit : IsUnit unitSize addr)
    (found : b.currVcMap[curr]? = some v) (result : b.processPostBarrierIn debug curr addr = some b') :
    SyncHolds unitSize S b' ∧ b.SameSettings b' ∧
      ∃ v', b'.currVcMap[curr]? = some (v'.increment curr) ∧ Gains (S .barrier addr) v v' := by
  have old := holds.barrierAt addr
  simp only [DetectorBase.processPostBarrierIn, found, BarrierMeta.processPostIn, Option.bind_eq_bind,
    Option.bind_some, Option.bind_eq_some_iff, Option.pure_def, Option.some.injEq] at result
  obtain ⟨⟨left, vc⟩, ⟨scan, ran, same⟩, rfl⟩ := result
  cases same
  obtain ⟨gains, tables⟩ := BarrierMeta.scan_gains (S := S .barrier addr) (fun entry member =>
    old entry.1 entry.2.1
      (BarrierMeta.stores_of_postTable (Std.ExtTreeMap.mem_toList_iff_getElem?_eq_some.mp member))) ran
  refine ⟨{ holds with barrier := holds.barrier.insert unit fun t vc stored => ?_ },
    ⟨rfl, rfl, rfl⟩, scan.currVc, by simp [DetectorBase.setVc], gains⟩
  rcases stored.of_settle with ⟨flag, kept⟩ | before
  · rcases tables t vc flag kept with known | ⟨flag', kept⟩
    · exact known
    · exact old t vc (BarrierMeta.stores_of_postTable kept)
  · exact old t vc before

end SyncHolds
end Maple.Race
