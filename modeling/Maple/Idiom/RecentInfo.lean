import Maple.Idiom.Observers

/-! `idiom/observer_new.cc` with the complex idioms: each thread keeps a queue of its recent
accesses, in which the remote successors of an access are recorded. -/
namespace Maple.Idiom.ObserverNew

/-- An access with its unique number. -/
structure Acc extends ObserverAccess where
  uid : ℕ
  deriving DecidableEq

/-- A `Meta` object. No object is deleted, so that `ptr` counts the allocations. -/
structure AccMeta where
  ptr : ℕ
  type : MetaType
  lastAccTable : OrdMap ThreadId (Bool × Acc) := ∅
  lastWriter : Option Acc := none

/-- A successor of an entry, with the accesses before it in its own thread. The vectors
`succs` and `succ_prevs` grow together. -/
structure Succ where
  acc : Acc
  prevs : List Acc

structure Entry where
  metaPtr : ℕ
  acc : Acc
  succs : List Succ := []

/-- The queue stands in the order of the searches, latest entry first. -/
structure RecentInfo where
  currThdClk : ℕ := 2 ^ 64 - 1
  entryQueue : List Entry := []

/-- `TIME_DISTANCE`, which wraps around when the end lies before the start. -/
def timeDistance (start finish : ℕ) : ℕ :=
  if start ≤ finish then finish - start else 2 ^ 64 - (start - finish)

/-- `lp_valid_table_`. -/
def checkLocalPair : IRootEventType → IRootEventType → Bool
  | .memRead, .memRead | .memRead, .memWrite | .memWrite, .memRead | .memWrite, .memWrite => true
  | .mutexUnlock, .mutexLock => true
  | _, _ => false

/-- The settings of an analyzer. -/
structure Config where
  ptrs : DbPointers
  debug : Bool
  complexIdioms : Bool
  singleVarIdioms : Bool
  vw : ℕ

structure State extends ObserverBase AccMeta where
  currAccUid : ℕ := 0
  nextMeta : ℕ := 0
  riTable : OrdMap ThreadId RecentInfo := ∅

namespace State

def recentInfo (s : State) (t : ThreadId) : RecentInfo := s.riTable[t]?.getD {}

def setRecentInfo (s : State) (t : ThreadId) (ri : RecentInfo) : State :=
  { s with riTable := s.riTable.insert t ri }

end State

/-! ### Meta data -/

/-- The last writer counts when another thread made the access. -/
def remoteWriter (curr : Acc) (m : AccMeta) : List Acc :=
  m.lastWriter.toList.filter fun acc => acc.thdId ≠ curr.thdId

/-- The observed predecessors of an access. -/
def predsOf (curr : Acc) (m : AccMeta) : List Acc :=
  if isRead curr.type then
    if m.lastAccTable[curr.thdId]?.any Prod.fst then [] else remoteWriter curr m
  else
    let lasts := m.lastAccTable.toList.filter fun last => last.2.1
    let war := (lasts.filter fun last => last.1 ≠ curr.thdId).map fun last => last.2.2
    if lasts.isEmpty then remoteWriter curr m else war

/-- The last part of `ProcessiRootEvent`. -/
def updateMeta (curr : Acc) (m : AccMeta) : AccMeta :=
  if isRead curr.type then { m with lastAccTable := m.lastAccTable.insert curr.thdId (true, curr) }
  else
    { m with
      lastAccTable := (m.lastAccTable.map fun _ last => (false, last.2)).insert curr.thdId (false, curr)
      lastWriter := some curr }

/-- `none` is the null pointer. -/
def State.getMemMeta (s : State) (iaddr : Address) : State × Option AccMeta :=
  match s.metaTable[iaddr]? with
  | none => ({ s with nextMeta := s.nextMeta + 1 }, some { ptr := s.nextMeta, type := .mem })
  | some m => match m.type with
    | .mem => (s, some m)
    | .mutex => (s, none)

def State.getMutexMeta (s : State) (iaddr : Address) : State × AccMeta :=
  let fresh : State × AccMeta := ({ s with nextMeta := s.nextMeta + 1 }, { ptr := s.nextMeta, type := .mutex })
  match s.metaTable[iaddr]? with
  | none => fresh
  | some m => match m.type with
    | .mem => fresh
    | .mutex => (s, m)

/-! ### Complex iroots -/

/-- The database, and the iroots that `Observed` has been called with. -/
abbrev ObserveM := StateT (IRootDb × List IRootObject) Option

section Complex
variable (c : Config)

def getEvent (acc : Acc) : ObserveM IRootEvent := fun (db, observed) =>
  let (db, event) := db.getiRootEvent c.ptrs acc.inst acc.type
  some (event, db, observed)

def getiRoot (idiom : IdiomType) (events : List IRootEvent) (sized : events.length = idiom.numEvents) :
    ObserveM IRootObject := fun (db, observed) =>
  let (db, iroot) := db.getiRoot c.ptrs idiom (events.map some) (by rw [List.length_map, sized])
  some (iroot, db, observed)

def callObserved (iroot : IRootObject) : ObserveM Unit := fun (db, observed) =>
  some ((), db, observed ++ [iroot])

/-- One successor of a previous access and one predecessor of the current one, by one thread. -/
def updateForPair (curr : Acc) (currMeta : ℕ) (prev : Entry) (succ : Succ) (pred : Acc) : ObserveM Unit := do
  StateT.lift (assertIn c.debug (succ.acc.thdId ≠ curr.thdId))
  if succ.acc.clk < pred.clk then
    let e0 ← getEvent c prev.acc
    let e1 ← getEvent c succ.acc
    let e2 ← getEvent c pred
    let e3 ← getEvent c curr
    if prev.metaPtr = currMeta then
      callObserved (← getiRoot c .idiom3 [e0, e1, e2, e3] rfl)
    else
      callObserved (← getiRoot c .idiom4 [e0, e1, e2, e3] rfl)
  else if pred.clk < succ.acc.clk ∧ timeDistance pred.clk succ.acc.clk < c.vw ∧ prev.metaPtr ≠ currMeta ∧
      succ.prevs.any (·.uid = pred.uid) then
    let e0 ← getEvent c prev.acc
    let e1 ← getEvent c succ.acc
    let e2 ← getEvent c pred
    let e3 ← getEvent c curr
    let iroot ← getiRoot c .idiom5 [e0, e1, e2, e3] rfl
    let irootx ← getiRoot c .idiom5 [e2, e3, e0, e1] rfl
    callObserved iroot
    callObserved irootx

def updateComplexiRoot (curr : Acc) (currMeta : ℕ) (preds : List Acc) (prev : Entry) : ObserveM Unit :=
  prev.succs.forM fun succ => do
    let sameThread := preds.filter fun pred => succ.acc.thdId = pred.thdId
    sameThread.forM (updateForPair c curr currMeta prev succ)
    if sameThread.any (succ.acc.uid = ·.uid) then
      let e0 ← getEvent c prev.acc
      let e1 ← getEvent c succ.acc
      let e2 ← getEvent c curr
      callObserved (← getiRoot c .idiom2 [e0, e1, e2] rfl)

/-- What is done with an entry that a search stops at, returning it as a local previous access. -/
def visitPrev (curr : Acc) (currMeta : ℕ) (preds : List Acc) (prev : Entry) : ObserveM Acc := do
  if checkLocalPair prev.acc.type curr.type then
    updateComplexiRoot c curr currMeta preds prev
  return prev.acc

/-- The search for the latest entry of the current meta. -/
def searchSingleVar (curr : Acc) (currMeta : ℕ) (preds : List Acc) : List Entry → ObserveM (List Acc)
  | [] => return []
  | prev :: rest => do
    if c.vw ≤ timeDistance prev.acc.clk curr.clk then return []
    if prev.metaPtr = currMeta then
      return [← visitPrev c curr currMeta preds prev]
    searchSingleVar curr currMeta preds rest

/-- The search for the latest entry of each meta. -/
def searchMetas (curr : Acc) (currMeta : ℕ) (preds : List Acc) (visitedMeta : List ℕ) :
    List Entry → ObserveM (List Acc)
  | [] => return []
  | prev :: rest => do
    if c.vw ≤ timeDistance prev.acc.clk curr.clk then return []
    if prev.metaPtr ∈ visitedMeta then
      return ← searchMetas curr currMeta preds visitedMeta rest
    let acc ← visitPrev c curr currMeta preds prev
    if prev.metaPtr = currMeta then
      return [acc]
    return acc :: (← searchMetas curr currMeta preds (prev.metaPtr :: visitedMeta) rest)

def searchPrevs (curr : Acc) (currMeta : ℕ) (preds : List Acc) (queue : List Entry) : ObserveM (List Acc) :=
  if c.singleVarIdioms then searchSingleVar c curr currMeta preds queue
  else searchMetas c curr currMeta preds [] queue

/-- The search for a predecessor in the queue of its thread. -/
def addSucc (clk uid : ℕ) (succ : Succ) : List Entry → List Entry
  | [] => []
  | entry :: rest =>
    if c.vw ≤ timeDistance entry.acc.clk clk then entry :: rest
    else if uid = entry.acc.uid then { entry with succs := entry.succs ++ [succ] } :: rest
    else entry :: addSucc clk uid succ rest

def RecentInfo.addSucc (ri : RecentInfo) (uid : ℕ) (succ : Succ) : RecentInfo :=
  { ri with entryQueue := ObserverNew.addSucc c ri.currThdClk uid succ ri.entryQueue }

/-- The entries within the window, of a queue that has reached the threshold. -/
def RecentInfo.gc (ri : RecentInfo) (clk threshold : ℕ) : RecentInfo :=
  if ri.entryQueue.length < threshold then ri
  else { ri with entryQueue := ri.entryQueue.takeWhile fun entry => timeDistance entry.acc.clk clk < c.vw }

def State.addSuccs (s : State) (succ : Succ) (preds : List Acc) : State :=
  preds.foldl (fun s pred => s.setRecentInfo pred.thdId ((s.recentInfo pred.thdId).addSucc c pred.uid succ)) s

-- `ENTRY_QUEUE_LIMIT`; without a limit `RecentInfoGC` is never called
variable (limit : Option ℕ)

/-- The entry of the current access, and the collection of the old ones. -/
def RecentInfo.push (ri : RecentInfo) (curr : Acc) (currMeta : ℕ) : RecentInfo :=
  let pushed : RecentInfo := ⟨curr.clk, ⟨currMeta, curr, []⟩ :: ri.entryQueue⟩
  limit.elim pushed (pushed.gc c curr.clk)

def State.processRecentInfo (s : State) (curr : Acc) (currMeta : ℕ) (preds : List Acc) :
    Option (State × List ObservedCall) := do
  let (searched, calls) ← if preds = [] then pure (s, []) else do
    let (prevs, irootDb, observed) ←
      (searchPrevs c curr currMeta preds (s.recentInfo curr.thdId).entryQueue).run (s.irootDb, [])
    pure (State.addSuccs c { s with irootDb } ⟨curr, prevs⟩ preds, observed.map (⟨·, s.shadow⟩))
  return (searched.setRecentInfo curr.thdId ((searched.recentInfo curr.thdId).push c limit curr currMeta), calls)

end Complex

/-! ### Hooks -/

namespace State
section Hooks
variable (c : Config) (limit : Option ℕ)

def processiRootEvent (s : State) (access : ObserverAccess) (iaddr : Address) (m : AccMeta) :
    Option (State × List ObservedCall) := do
  let curr : Acc := ⟨access, s.currAccUid + 1⟩
  let preds := predsOf curr m
  let (irootDb, calls) := updateiRoots c.ptrs s.shadow access (preds.map Acc.toObserverAccess) s.irootDb
  let numbered : State := { s with currAccUid := s.currAccUid + 1, irootDb }
  let (next, complex) ←
    if c.complexIdioms then numbered.processRecentInfo c limit curr m.ptr preds else pure (numbered, [])
  return ({ next with metaTable := next.metaTable.insert iaddr (updateMeta curr m) }, calls ++ complex)

def onUnit (s : State) (access : ObserverAccess) (iaddr : Address) : Option (State × List ObservedCall) :=
  match s.getMemMeta iaddr with
  | (_, none) => some (s, [])
  | (found, some m) => found.processiRootEvent c limit access iaddr m

def onUnits (access : ObserverAccess) : List Address → State → Option (State × List ObservedCall)
  | [], s => some (s, [])
  | iaddr :: rest, s => do
    let (next, calls) ← s.onUnit c limit access iaddr
    let (last, later) ← onUnits access rest next
    return (last, calls ++ later)

/-- `BeforeMemRead` and `BeforeMemWrite`. -/
def beforeMem (s : State) (access : ObserverAccess) (addr size : Address) : Option (State × List ObservedCall) :=
  if s.filter.filter addr then some (s, []) else onUnits c limit access (unitsOf s.unitSize addr size) s

/-- The hooks of a mutex, and the halves of a wait with its mutex. -/
def onMutex (s : State) (access : ObserverAccess) (addr : Address) : Option (State × List ObservedCall) := do
  assertIn c.debug (unitDownAlign addr s.unitSize = addr)
  let (found, m) := s.getMutexMeta addr
  found.processiRootEvent c limit access addr m

/-- The hooks that concern regions only. -/
def onRegions (s : State) (next : Option (ObserverBase AccMeta)) : Option (State × List ObservedCall) :=
  next.map fun base => ({ s with toObserverBase := base }, [])

/-- A hook call, with the calls of `Observed` that it makes. -/
def step (s : State) : ObserverHook → Option (State × List ObservedCall)
  | .imageLoad lowAddr highAddr dataStart dataSize bssStart bssSize =>
    s.onRegions (s.imageLoad c.debug lowAddr highAddr dataStart dataSize bssStart bssSize)
  | .imageUnload lowAddr dataStart bssStart => s.onRegions (s.imageUnload c.debug lowAddr dataStart bssStart)
  | .threadStart _ _ | .threadExit _ _ => some (s, [])
  | .beforeMemRead curr clk inst addr size => s.beforeMem c limit ⟨curr, clk, .memRead, inst⟩ addr size
  | .beforeMemWrite curr clk inst addr size => s.beforeMem c limit ⟨curr, clk, .memWrite, inst⟩ addr size
  | .afterPthreadMutexLock curr clk inst addr
  | .afterPthreadCondWait curr clk inst _ addr
  | .afterPthreadCondTimedwait curr clk inst _ addr => s.onMutex c limit ⟨curr, clk, .mutexLock, inst⟩ addr
  | .beforePthreadMutexUnlock curr clk inst addr
  | .beforePthreadCondWait curr clk inst _ addr
  | .beforePthreadCondTimedwait curr clk inst _ addr => s.onMutex c limit ⟨curr, clk, .mutexUnlock, inst⟩ addr
  | .afterMalloc size addr | .afterValloc size addr | .afterRealloc size addr =>
    s.onRegions (s.allocAddrRegion c.debug addr size)
  | .afterCalloc nmemb size addr => s.onRegions (s.allocAddrRegion c.debug addr (size * nmemb))
  | .beforeRealloc addr | .beforeFree addr => s.onRegions (some (s.freeAddrRegion addr))

end Hooks
end State

/-- A run from the setup of an analyzer, by the calls of `Observed` that each hook makes. -/
def observedCalls (c : Config) (limit : Option ℕ) (unitSize : Address) (shadow : Bool) (irootDb : IRootDb)
    (tr : List ObserverHook) : Option (List (List ObservedCall)) :=
  let start : State := { unitSize, shadow, irootDb }
  (Runs.run (State.step c limit) start tr).map Prod.snd

/-! ### The complex idioms switched off -/

/-- Meta data without the numbers of the accesses. -/
structure Erased (m : AccMeta) (plain : Meta) : Prop where
  type : plain.type = m.type
  writer : plain.lastWriter = m.lastWriter.map Acc.toObserverAccess
  table : plain.lastAccTable = m.lastAccTable.map fun _ last => (last.1, last.2.toObserverAccess)

section Erased
variable {c : Config} {m : AccMeta} {plain : Meta} {curr : Acc}

theorem remoteWriter_erased (erased : Erased m plain) (curr : Acc) :
    remote plain.lastWriter curr.thdId = (remoteWriter curr m).map Acc.toObserverAccess := by
  rw [remote, remoteWriter, erased.writer]
  cases m.lastWriter with
  | none => rfl
  | some writer => by_cases same : writer.thdId = curr.thdId <;> simp [same]

theorem validOf_erased (erased : Erased m plain) (t : ThreadId) :
    validOf plain.lastAccTable t = m.lastAccTable[t]?.any Prod.fst := by
  rw [validOf, erased.table, Std.ExtTreeMap.getElem?_map]
  cases m.lastAccTable[t]? <;> rfl

theorem validAccs_erased (erased : Erased m plain) :
    validAccs plain.lastAccTable =
      (m.lastAccTable.toList.filter fun last => last.2.1).map fun last => (last.1, last.2.2.toObserverAccess) := by
  rw [validAccs, erased.table, Std.ExtTreeMap.toList_map, List.filterMap_map]
  induction m.lastAccTable.toList with
  | nil => rfl
  | cons last rest ih =>
    obtain ⟨t, valid, acc⟩ := last
    cases valid <;> simp_all

theorem predsOf_erased (erased : Erased m plain) (curr : Acc) :
    (processiRootEvent curr.toObserverAccess plain).2 = (predsOf curr m).map Acc.toObserverAccess := by
  rw [processiRootEvent, predsOf]
  split
  · rw [validOf_erased erased, remoteWriter_erased erased]
    split <;> rfl
  · simp only [validAccs_erased erased, remoteWriter_erased erased, List.isEmpty_map, List.filter_map, List.map_map]
    split
    · rfl
    · rw [List.map_map]
      rfl

theorem Erased.fresh (ptr : ℕ) (type : MetaType) : Erased { ptr, type } { type } where
  type := rfl
  writer := rfl
  table := by
    apply Std.ExtTreeMap.ext_getElem?
    simp

/-- A table and its image agree behind an insertion. -/
theorem map_insert {A B : Type} (f : Bool × A → Bool × B) (table : OrdMap ThreadId (Bool × A)) (t : ThreadId)
    (last : Bool × A) :
    (table.map fun _ last => f last).insert t (f last) = (table.insert t last).map fun _ last => f last := by
  apply Std.ExtTreeMap.ext_getElem?
  intro u
  rw [Std.ExtTreeMap.getElem?_map, getElem?_insert_thread, getElem?_insert_thread, Std.ExtTreeMap.getElem?_map]
  split
  · rfl
  · rfl

theorem Erased.update (erased : Erased m plain) (curr : Acc) :
    Erased (updateMeta curr m) (processiRootEvent curr.toObserverAccess plain).1 := by
  rw [processiRootEvent, updateMeta]
  split
  · refine ⟨erased.type, erased.writer, ?_⟩
    rw [erased.table]
    exact map_insert (fun last => (last.1, last.2.toObserverAccess)) m.lastAccTable curr.thdId (true, curr)
  · refine ⟨erased.type, rfl, ?_⟩
    have cleared : invalidateAll plain.lastAccTable =
        (m.lastAccTable.map fun _ last => (false, last.2)).map fun _ last => (last.1, last.2.toObserverAccess) := by
      rw [invalidateAll, erased.table, Std.ExtTreeMap.map_map, Std.ExtTreeMap.map_map]
    rw [cleared]
    exact map_insert (fun last => (last.1, last.2.toObserverAccess)) _ curr.thdId (false, curr)

end Erased

/-- A base beside one without the numbers of the accesses. -/
abbrev PlainBase : ObserverBase AccMeta → ObserverBase Meta → Prop :=
  ObserverBase.Rel Eq fun _ => Option.Rel Erased

abbrev Plain (s : State) (b : ObserverBase Meta) : Prop := PlainBase s.toObserverBase b

abbrev PlainStep (r : State × List ObservedCall) (r' : ObserverBase Meta × List ObservedCall) : Prop :=
  Plain r.1 r'.1 ∧ r.2 = r'.2

section Plain
variable {c : Config} {limit : Option ℕ} {s : State} {b : ObserverBase Meta} {access : ObserverAccess}

/-- The access of an entry that is there or has been made. -/
theorem Plain.processiRootEvent (plain : Plain s b) (off : c.complexIdioms = false) {m : AccMeta} {m' : Meta}
    (erased : Erased m m') {iaddr : Address}
    (found : ObserverNew.update access b.metaTable[iaddr]? = (ObserverNew.processiRootEvent access m').map some id) :
    ∃ r, s.processiRootEvent c limit access iaddr m = some r ∧
      PlainStep r (b.onAddress ObserverNew.update c.ptrs access iaddr) := by
  have preds := predsOf_erased erased ⟨access, s.currAccUid + 1⟩
  have kept := erased.update ⟨access, s.currAccUid + 1⟩
  simp only [State.processiRootEvent, off, ObserverBase.onAddress, found, plain.shadow, plain.irootDb, Prod.map, id,
    ← preds]
  refine ⟨_, rfl, ⟨plain.unitSize, rfl, plain.filter, rfl, fun a => ?_⟩, by simp⟩
  rw [Std.ExtTreeMap.getElem?_insert, Std.ExtTreeMap.getElem?_alter]
  split
  · exact .some kept
  · exact plain.entries a

theorem Plain.allocate (plain : Plain s b) : Plain { s with nextMeta := s.nextMeta + 1 } b :=
  ⟨plain.unitSize, plain.shadow, plain.filter, plain.irootDb, plain.entries⟩

theorem Plain.onUnit (plain : Plain s b) (off : c.complexIdioms = false)
    (memory : access.type = .memRead ∨ access.type = .memWrite) (iaddr : Address) :
    ∃ r, s.onUnit c limit access iaddr = some r ∧
      PlainStep r (b.onAddress ObserverNew.update c.ptrs access iaddr) := by
  have updated : ObserverNew.update access b.metaTable[iaddr]? =
      (ObserverNew.getMemMeta b.metaTable[iaddr]?).elim (b.metaTable[iaddr]?, []) fun m =>
        (ObserverNew.processiRootEvent access m).map some id := by
    obtain ⟨curr, clk, type, inst⟩ := access
    obtain (rfl : type = _) | (rfl : type = _) := memory
    · rw [ObserverNew.update]
      cases ObserverNew.getMemMeta b.metaTable[iaddr]? <;> rfl
    · rw [ObserverNew.update]
      cases ObserverNew.getMemMeta b.metaTable[iaddr]? <;> rfl
  have entry := plain.entries iaddr
  rw [State.onUnit, State.getMemMeta]
  cases found : s.metaTable[iaddr]? with
  | none =>
    rw [found] at entry
    have absent : b.metaTable[iaddr]? = none := by
      cases here : b.metaTable[iaddr]? with
      | none => rfl
      | some _ => simp [here] at entry
    rw [absent] at updated
    exact plain.allocate.processiRootEvent off (.fresh s.nextMeta .mem) (by rw [absent]; exact updated)
  | some m =>
    cases found' : b.metaTable[iaddr]? with
    | none => simp [found, found'] at entry
    | some m' =>
      have erased : Erased m m' := by simpa [found, found'] using entry
      cases type : m.type with
      | mem =>
        rw [found', ObserverNew.getMemMeta, erased.type.trans type] at updated
        simp only [type]
        exact plain.processiRootEvent off erased (by rw [found']; exact updated)
      | mutex =>
        rw [found', ObserverNew.getMemMeta, erased.type.trans type, Option.elim_none] at updated
        simp only [type]
        refine ⟨_, rfl, ⟨plain.unitSize, plain.shadow, plain.filter, ?_, fun a => ?_⟩, ?_⟩
        · simp only [ObserverBase.onAddress, found', updated, updateiRoots, plain.irootDb]
        · rw [ObserverBase.onAddress, found', updated, Std.ExtTreeMap.getElem?_alter]
          split
          · next here =>
            rw [← Std.compare_eq_iff_eq.mp here, found]
            exact .some erased
          · exact plain.entries a
        · simp only [ObserverBase.onAddress, found', updated, updateiRoots]

theorem Plain.onUnits (plain : Plain s b) (off : c.complexIdioms = false)
    (memory : access.type = .memRead ∨ access.type = .memWrite) (units : List Address) :
    ∃ r, State.onUnits c limit access units s = some r ∧
      PlainStep r (b.onUnits ObserverNew.update c.ptrs access units) := by
  induction units generalizing s b with
  | nil => exact ⟨_, rfl, plain, rfl⟩
  | cons iaddr rest ih =>
    obtain ⟨r, (stepped : s.onUnit c limit access iaddr = some r), next, calls⟩ := plain.onUnit off memory iaddr
    obtain ⟨last, ran, agrees, later⟩ := ih next
    refine ⟨(last.1, r.2 ++ last.2), ?_, agrees, ?_⟩
    · simp only [State.onUnits, stepped, ran, Option.bind_eq_bind, Option.bind_some]
      rfl
    · rw [calls, later, ObserverBase.onUnits]

theorem Plain.beforeMem (plain : Plain s b) (off : c.complexIdioms = false)
    (memory : access.type = .memRead ∨ access.type = .memWrite) (addr size : Address) :
    ∃ r, s.beforeMem c limit access addr size = some r ∧
      PlainStep r (b.beforeMem ObserverNew.update c.ptrs access addr size) := by
  rw [State.beforeMem, ObserverBase.beforeMem, plain.filter, plain.unitSize]
  split
  · exact ⟨_, rfl, plain, rfl⟩
  · exact plain.onUnits off memory _

theorem Plain.onMutex (plain : Plain s b) (off : c.complexIdioms = false)
    (mutex : access.type = .mutexLock ∨ access.type = .mutexUnlock) (addr : Address) :
    Option.Rel PlainStep (s.onMutex c limit access addr)
      (b.onMutex ObserverNew.update c.ptrs c.debug access addr) := by
  have updated : ObserverNew.update access b.metaTable[addr]? =
      (ObserverNew.processiRootEvent access (ObserverNew.getMutexMeta b.metaTable[addr]?)).map some id := by
    rcases mutex with type | type <;> simp only [ObserverNew.update, type]
  have entry := plain.entries addr
  have found : Plain (s.getMutexMeta addr).1 b ∧
      Erased (s.getMutexMeta addr).2 (ObserverNew.getMutexMeta b.metaTable[addr]?) := by
    rw [State.getMutexMeta]
    generalize s.metaTable[addr]? = known, b.metaTable[addr]? = known' at entry
    cases entry with
    | none => exact ⟨plain.allocate, .fresh s.nextMeta .mutex⟩
    | @some m m' erased =>
      simp only [ObserverNew.getMutexMeta, erased.type]
      cases type : m.type with
      | mem => exact ⟨plain.allocate, .fresh s.nextMeta .mutex⟩
      | mutex => exact ⟨plain, erased⟩
  simp only [State.onMutex, ObserverBase.onMutex, plain.unitSize]
  cases assertIn c.debug (unitDownAlign addr b.unitSize = addr) with
  | none => exact .none
  | some _ =>
    obtain ⟨r, processed, agrees⟩ := @Plain.processiRootEvent c limit _ _ _ found.1 off _ _ found.2 _ updated
    simp only [Option.bind_eq_bind, Option.bind_some, processed]
    exact .some agrees

/-- A change of the regions. -/
theorem Plain.onRegions {next : Option (ObserverBase AccMeta)} {next' : Option (ObserverBase Meta)}
    (rel : Option.Rel PlainBase next next') :
    Option.Rel PlainStep (s.onRegions next) (next'.map (·, [])) := by
  cases rel with
  | none => exact .none
  | some plain => exact .some ⟨plain, rfl⟩

theorem Plain.step (plain : Plain s b) (off : c.complexIdioms = false) (e : ObserverHook) :
    Option.Rel PlainStep (s.step c limit e) (b.step ObserverNew.update c.ptrs c.debug e) := by
  cases e with
  | imageLoad lowAddr highAddr dataStart dataSize bssStart bssSize =>
    exact Plain.onRegions (ObserverBase.Rel.imageLoad plain c.debug lowAddr highAddr dataStart dataSize bssStart bssSize)
  | imageUnload lowAddr dataStart bssStart =>
    exact Plain.onRegions (ObserverBase.Rel.imageUnload (fun _ => .none) plain c.debug lowAddr dataStart bssStart)
  | threadStart | threadExit => exact .some ⟨plain, rfl⟩
  | beforeMemRead curr clk inst addr size =>
    obtain ⟨r, stepped, agrees⟩ :=
      @Plain.beforeMem c limit s b ⟨curr, clk, .memRead, inst⟩ plain off (Or.inl rfl) addr size
    rw [State.step, stepped]
    exact .some agrees
  | beforeMemWrite curr clk inst addr size =>
    obtain ⟨r, stepped, agrees⟩ :=
      @Plain.beforeMem c limit s b ⟨curr, clk, .memWrite, inst⟩ plain off (Or.inr rfl) addr size
    rw [State.step, stepped]
    exact .some agrees
  | afterPthreadMutexLock | afterPthreadCondWait | afterPthreadCondTimedwait => exact plain.onMutex off (Or.inl rfl) _
  | beforePthreadMutexUnlock | beforePthreadCondWait | beforePthreadCondTimedwait =>
    exact plain.onMutex off (Or.inr rfl) _
  | afterMalloc size addr | afterValloc size addr | afterRealloc size addr =>
    exact Plain.onRegions (ObserverBase.Rel.allocAddrRegion plain c.debug addr size)
  | afterCalloc nmemb size addr =>
    exact Plain.onRegions (ObserverBase.Rel.allocAddrRegion plain c.debug addr (size * nmemb))
  | beforeRealloc addr | beforeFree addr =>
    exact .some ⟨ObserverBase.Rel.freeAddrRegion (fun _ => .none) plain addr, rfl⟩

end Plain

/-- Without the complex idioms the calls are those of the plain observer. -/
theorem observedCalls_off {c : Config} (off : c.complexIdioms = false) (limit : Option ℕ) (unitSize : Address)
    (shadow : Bool) (irootDb : IRootDb) (tr : List ObserverHook) :
    observedCalls c limit unitSize shadow irootDb tr = observed c.ptrs c.debug { unitSize, shadow, irootDb } tr := by
  let start : State := { unitSize, shadow, irootDb }
  let start' : ObserverBase Meta := { unitSize, shadow, irootDb }
  have initial : Plain start start' := by
    refine ⟨rfl, rfl, rfl, rfl, fun a => ?_⟩
    simp [start, start']
  exact Runs.outputs_eq (fun _ s b => Plain s b) tr (fun _ _ _ e _ plain => plain.step off e) start start' initial

end Maple.Idiom.ObserverNew
