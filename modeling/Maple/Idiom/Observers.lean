import Maple.Core.Filter
import Maple.Idiom.IRootDb
import Maple.Lib.Runs

/-! The iroot observers `idiom/observer.cc` and `idiom/observer_new.cc`, with the complex
idioms switched off, as they are by default. The two classes have the same hooks and keep
the same regions; they differ in the meta data of an address and in how an access changes
it. -/
namespace Maple.Idiom

/-- An access. `ObserverNew` numbers its accesses besides, for the complex idioms. -/
structure ObserverAccess where
  thdId : ThreadId
  clk : ℕ
  type : IRootEventType
  inst : InstId
  deriving DecidableEq

/-- A call of `Memo::Observed`. -/
structure ObservedCall where
  iroot : IRootObject
  shadow : Bool
  deriving DecidableEq

/-- The hooks that the observers override. -/
inductive ObserverHook where
  | imageLoad (lowAddr highAddr dataStart dataSize bssStart bssSize : Address)
  | imageUnload (lowAddr dataStart bssStart : Address)
  | threadStart (curr parent : ThreadId)
  | threadExit (curr : ThreadId) (clk : ℕ)
  | beforeMemRead (curr : ThreadId) (clk : ℕ) (inst : InstId) (addr size : Address)
  | beforeMemWrite (curr : ThreadId) (clk : ℕ) (inst : InstId) (addr size : Address)
  | afterPthreadMutexLock (curr : ThreadId) (clk : ℕ) (inst : InstId) (addr : Address)
  | beforePthreadMutexUnlock (curr : ThreadId) (clk : ℕ) (inst : InstId) (addr : Address)
  | beforePthreadCondWait (curr : ThreadId) (clk : ℕ) (inst : InstId) (condAddr mutexAddr : Address)
  | afterPthreadCondWait (curr : ThreadId) (clk : ℕ) (inst : InstId) (condAddr mutexAddr : Address)
  | beforePthreadCondTimedwait (curr : ThreadId) (clk : ℕ) (inst : InstId) (condAddr mutexAddr : Address)
  | afterPthreadCondTimedwait (curr : ThreadId) (clk : ℕ) (inst : InstId) (condAddr mutexAddr : Address)
  | afterMalloc (size addr : Address)
  | afterCalloc (nmemb size addr : Address)
  | beforeRealloc (oriAddr : Address)
  | afterRealloc (size newAddr : Address)
  | beforeFree (addr : Address)
  | afterValloc (size addr : Address)
  deriving DecidableEq

/-- A last access `last` counts when it exists and another thread made it. -/
def remote (last : Option ObserverAccess) (curr : ThreadId) : List ObserverAccess :=
  last.toList.filter fun acc => acc.thdId ≠ curr

/-- The accesses that the first loop of a write finds valid. -/
def validAccs (table : OrdMap ThreadId (Bool × ObserverAccess)) : List (ThreadId × ObserverAccess) :=
  table.toList.filterMap fun entry => if entry.2.1 then some (entry.1, entry.2.2) else none

def invalidateAll (table : OrdMap ThreadId (Bool × ObserverAccess)) : OrdMap ThreadId (Bool × ObserverAccess) :=
  table.map fun _ last => (false, last.2)

/-- Whether a valid entry of the thread exists. -/
def validOf (table : OrdMap ThreadId (Bool × ObserverAccess)) (t : ThreadId) : Bool :=
  table[t]?.any Prod.fst

/-- `last_writer_` is absent while its flag is false. -/
structure ObserverMemMeta where
  lastWriter : Option ObserverAccess := none
  lastReaders : OrdMap ThreadId (Bool × ObserverAccess) := ∅

structure ObserverMutexMeta where
  lastUnlocker : Option ObserverAccess := none

inductive ObserverMeta where
  | mem (m : ObserverMemMeta)
  | mutex (m : ObserverMutexMeta)

namespace Observer

/-- `none` is the null pointer: the address belongs to a mutex. -/
def getMemMeta : Option ObserverMeta → Option ObserverMemMeta
  | none => some {}
  | some (.mem m) => some m
  | some (.mutex _) => none

def getMutexMeta : Option ObserverMeta → ObserverMutexMeta
  | none => {}
  | some (.mem _) => {}
  | some (.mutex m) => m

def updateForRead (curr : ObserverAccess) (m : ObserverMemMeta) : ObserverMemMeta × List ObserverAccess :=
  let preds := if validOf m.lastReaders curr.thdId then [] else remote m.lastWriter curr.thdId
  ({ m with lastReaders := m.lastReaders.insert curr.thdId (true, curr) }, preds)

def updateForWrite (curr : ObserverAccess) (m : ObserverMemMeta) : ObserverMemMeta × List ObserverAccess :=
  let readers := validAccs m.lastReaders
  let war := (readers.filter fun reader => reader.2.thdId ≠ curr.thdId).map Prod.snd
  let preds := if readers.isEmpty then remote m.lastWriter curr.thdId else war
  (⟨some curr, invalidateAll m.lastReaders⟩, preds)

def updateForLock (curr : ObserverAccess) (m : ObserverMutexMeta) : ObserverMutexMeta × List ObserverAccess :=
  (m, remote m.lastUnlocker curr.thdId)

def updateForUnlock (curr : ObserverAccess) (_ : ObserverMutexMeta) : ObserverMutexMeta × List ObserverAccess :=
  (⟨some curr⟩, [])

/-- What a hook does to the entry of an address, with the predecessors it finds. -/
def update (curr : ObserverAccess) (entry : Option ObserverMeta) : Option ObserverMeta × List ObserverAccess :=
  match curr.type with
  | .memRead => match getMemMeta entry with
    | none => (entry, [])
    | some m => (updateForRead curr m).map (some ∘ .mem) id
  | .memWrite => match getMemMeta entry with
    | none => (entry, [])
    | some m => (updateForWrite curr m).map (some ∘ .mem) id
  | .mutexLock => (updateForLock curr (getMutexMeta entry)).map (some ∘ .mutex) id
  | .mutexUnlock => (updateForUnlock curr (getMutexMeta entry)).map (some ∘ .mutex) id

end Observer

/-- `TYPE_INVALID` is no type of meta data. -/
inductive MetaType where
  | mem | mutex
  deriving DecidableEq

structure Meta where
  type : MetaType
  lastAccTable : OrdMap ThreadId (Bool × ObserverAccess) := ∅
  lastWriter : Option ObserverAccess := none

namespace ObserverNew

def getMemMeta : Option Meta → Option Meta
  | none => some { type := .mem }
  | some m => match m.type with
    | .mem => some m
    | .mutex => none

/-- `ProcessFree` clears a meta object that nothing refers to any more. -/
def getMutexMeta : Option Meta → Meta
  | none => { type := .mutex }
  | some m => match m.type with
    | .mem => { type := .mutex }
    | .mutex => m

def isRead (type : IRootEventType) : Bool := type = .memRead

/-- Everything but a read is a write here, the operations on a mutex included. -/
def processiRootEvent (curr : ObserverAccess) (m : Meta) : Meta × List ObserverAccess :=
  if isRead curr.type then
    let preds := if validOf m.lastAccTable curr.thdId then [] else remote m.lastWriter curr.thdId
    ({ m with lastAccTable := m.lastAccTable.insert curr.thdId (true, curr) }, preds)
  else
    let lasts := validAccs m.lastAccTable
    let war := (lasts.filter fun last => last.1 ≠ curr.thdId).map Prod.snd
    let preds := if lasts.isEmpty then remote m.lastWriter curr.thdId else war
    ({ m with
        lastAccTable := (invalidateAll m.lastAccTable).insert curr.thdId (false, curr)
        lastWriter := some curr }, preds)

def update (curr : ObserverAccess) (entry : Option Meta) : Option Meta × List ObserverAccess :=
  match curr.type with
  | .memRead | .memWrite => match getMemMeta entry with
    | none => (entry, [])
    | some m => (processiRootEvent curr m).map some id
  | .mutexLock | .mutexUnlock => (processiRootEvent curr (getMutexMeta entry)).map some id

end ObserverNew

/-- Members of both observers. `M` is the class of their meta data. -/
structure ObserverBase (M : Type) where
  unitSize : Address
  shadow : Bool
  filter : RegionFilter := {}
  metaTable : OrdMap Address M := ∅
  irootDb : IRootDb

/-- `UpdateiRoots` of `Observer`, `UpdateiRoot` of `ObserverNew`. -/
def updateiRoots (ptrs : DbPointers) (shadow : Bool) (curr : ObserverAccess) :
    List ObserverAccess → IRootDb → IRootDb × List ObservedCall
  | [], db => (db, [])
  | pred :: rest, db =>
    let (withPred, predEvent) := db.getiRootEvent ptrs pred.inst pred.type
    let (withCurr, currEvent) := withPred.getiRootEvent ptrs curr.inst curr.type
    let (withRoot, iroot) := withCurr.getiRoot ptrs .idiom1 [some predEvent, some currEvent] rfl
    let (last, calls) := updateiRoots ptrs shadow curr rest withRoot
    (last, ⟨iroot, shadow⟩ :: calls)

namespace ObserverBase
variable {M : Type}

section Update
variable (update : ObserverAccess → Option M → Option M × List ObserverAccess) (ptrs : DbPointers)

/-- The part of a hook that is about one address. -/
def onAddress (b : ObserverBase M) (curr : ObserverAccess) (iaddr : Address) : ObserverBase M × List ObservedCall :=
  let (entry, preds) := update curr b.metaTable[iaddr]?
  let (irootDb, calls) := updateiRoots ptrs b.shadow curr preds b.irootDb
  ({ b with metaTable := b.metaTable.alter iaddr fun _ => entry, irootDb }, calls)

def onUnits (curr : ObserverAccess) : List Address → ObserverBase M → ObserverBase M × List ObservedCall
  | [], b => (b, [])
  | iaddr :: rest, b =>
    let (next, calls) := b.onAddress update ptrs curr iaddr
    let (last, later) := onUnits curr rest next
    (last, calls ++ later)

/-- `BeforeMemRead` and `BeforeMemWrite`. -/
def beforeMem (b : ObserverBase M) (curr : ObserverAccess) (addr size : Address) :
    ObserverBase M × List ObservedCall :=
  if b.filter.filter addr then (b, []) else onUnits update ptrs curr (unitsOf b.unitSize addr size) b

/-- The hooks of a mutex, and the halves of a wait with its mutex. -/
def onMutex (debug : Bool) (b : ObserverBase M) (curr : ObserverAccess) (addr : Address) :
    Option (ObserverBase M × List ObservedCall) := do
  assertIn debug (unitDownAlign addr b.unitSize = addr)
  return b.onAddress update ptrs curr addr

end Update

def allocAddrRegion (debug : Bool) (b : ObserverBase M) (addr size : Address) : Option (ObserverBase M) := do
  assertIn debug (addr ≠ 0 ∧ size ≠ 0)
  return { b with filter := b.filter.addRegion addr size }

def freeUnits : List Address → OrdMap Address M → OrdMap Address M
  | [], table => table
  | iaddr :: rest, table => freeUnits rest (table.erase iaddr)

def freeAddrRegion (b : ObserverBase M) (addr : Address) : ObserverBase M :=
  if addr = 0 then b
  else
    let (size, filter) := b.filter.removeRegion addr
    { b with filter, metaTable := freeUnits (unitsOf b.unitSize addr size) b.metaTable }

def allocSection (debug : Bool) (b : ObserverBase M) (start size : Address) : Option (ObserverBase M) :=
  if start ≠ 0 then b.allocAddrRegion debug start size else some b

def imageLoad (debug : Bool) (b : ObserverBase M)
    (lowAddr highAddr dataStart dataSize bssStart bssSize : Address) : Option (ObserverBase M) := do
  assertIn debug (lowAddr ≠ 0 ∧ highAddr ≠ 0 ∧ lowAddr < highAddr)
  let withData ← b.allocSection debug dataStart dataSize
  withData.allocSection debug bssStart bssSize

def imageUnload (debug : Bool) (b : ObserverBase M) (lowAddr dataStart bssStart : Address) :
    Option (ObserverBase M) := do
  assertIn debug (lowAddr ≠ 0)
  return (b.freeAddrRegion dataStart).freeAddrRegion bssStart

/-- A hook call, with the calls of `Observed` that it makes. -/
def step (update : ObserverAccess → Option M → Option M × List ObserverAccess) (ptrs : DbPointers) (debug : Bool)
    (b : ObserverBase M) : ObserverHook → Option (ObserverBase M × List ObservedCall)
  | .imageLoad lowAddr highAddr dataStart dataSize bssStart bssSize =>
    (b.imageLoad debug lowAddr highAddr dataStart dataSize bssStart bssSize).map (·, [])
  | .imageUnload lowAddr dataStart bssStart => (b.imageUnload debug lowAddr dataStart bssStart).map (·, [])
  -- what `Observer` clears here is used by the complex idioms only
  | .threadStart _ _ | .threadExit _ _ => some (b, [])
  | .beforeMemRead curr clk inst addr size => some (b.beforeMem update ptrs ⟨curr, clk, .memRead, inst⟩ addr size)
  | .beforeMemWrite curr clk inst addr size => some (b.beforeMem update ptrs ⟨curr, clk, .memWrite, inst⟩ addr size)
  | .afterPthreadMutexLock curr clk inst addr
  | .afterPthreadCondWait curr clk inst _ addr
  | .afterPthreadCondTimedwait curr clk inst _ addr =>
    b.onMutex update ptrs debug ⟨curr, clk, .mutexLock, inst⟩ addr
  | .beforePthreadMutexUnlock curr clk inst addr
  | .beforePthreadCondWait curr clk inst _ addr
  | .beforePthreadCondTimedwait curr clk inst _ addr =>
    b.onMutex update ptrs debug ⟨curr, clk, .mutexUnlock, inst⟩ addr
  | .afterMalloc size addr | .afterValloc size addr | .afterRealloc size addr =>
    (b.allocAddrRegion debug addr size).map (·, [])
  | .afterCalloc nmemb size addr => (b.allocAddrRegion debug addr (size * nmemb)).map (·, [])
  | .beforeRealloc addr | .beforeFree addr => some (b.freeAddrRegion addr, [])

end ObserverBase

/-- A run of `Observer` from its setup, by the calls of `Observed` that each hook makes. -/
def Observer.observed (ptrs : DbPointers) (debug : Bool) (start : ObserverBase ObserverMeta)
    (tr : List ObserverHook) : Option (List (List ObservedCall)) :=
  (Runs.run (ObserverBase.step Observer.update ptrs debug) start tr).map Prod.snd

/-- The same for `ObserverNew`. -/
def ObserverNew.observed (ptrs : DbPointers) (debug : Bool) (start : ObserverBase Meta)
    (tr : List ObserverHook) : Option (List (List ObservedCall)) :=
  (Runs.run (ObserverBase.step ObserverNew.update ptrs debug) start tr).map Prod.snd

/-! ### Observers side by side -/

/-- Two observers with equal regions, for any relation of their databases and entries. -/
structure ObserverBase.Rel {M M' : Type} (dbs : IRootDb → IRootDb → Prop) (entry : Address → Option M → Option M' → Prop)
    (b : ObserverBase M) (b' : ObserverBase M') : Prop where
  unitSize : b.unitSize = b'.unitSize
  shadow : b.shadow = b'.shadow
  filter : b.filter = b'.filter
  irootDb : dbs b.irootDb b'.irootDb
  entries : ∀ a : Address, entry a b.metaTable[a]? b'.metaTable[a]?

section Rel
variable {M M' : Type} {dbs : IRootDb → IRootDb → Prop} {entry : Address → Option M → Option M' → Prop}
  {b : ObserverBase M} {b' : ObserverBase M'}

theorem ObserverBase.Rel.allocAddrRegion (rel : Rel dbs entry b b') (debug : Bool) (addr size : Address) :
    Option.Rel (Rel dbs entry) (b.allocAddrRegion debug addr size) (b'.allocAddrRegion debug addr size) := by
  simp only [ObserverBase.allocAddrRegion]
  cases assertIn debug (addr ≠ 0 ∧ size ≠ 0) with
  | none => exact .none
  | some _ => exact .some ⟨rel.unitSize, rel.shadow, by rw [rel.filter], rel.irootDb, rel.entries⟩

theorem ObserverBase.Rel.allocSection (rel : Rel dbs entry b b') (debug : Bool) (addr size : Address) :
    Option.Rel (Rel dbs entry) (b.allocSection debug addr size) (b'.allocSection debug addr size) := by
  simp only [ObserverBase.allocSection]
  split
  · exact rel.allocAddrRegion debug addr size
  · exact .some rel

theorem ObserverBase.Rel.imageLoad (rel : Rel dbs entry b b') (debug : Bool)
    (lowAddr highAddr dataStart dataSize bssStart bssSize : Address) :
    Option.Rel (Rel dbs entry) (b.imageLoad debug lowAddr highAddr dataStart dataSize bssStart bssSize)
      (b'.imageLoad debug lowAddr highAddr dataStart dataSize bssStart bssSize) := by
  simp only [ObserverBase.imageLoad, Option.bind_eq_bind]
  cases assertIn debug (lowAddr ≠ 0 ∧ highAddr ≠ 0 ∧ lowAddr < highAddr) with
  | none => exact .none
  | some _ =>
    simp only [Option.bind_some]
    exact Runs.rel_bind (rel.allocSection debug dataStart dataSize) fun _ _ loaded =>
      loaded.allocSection debug bssStart bssSize

/-- The units of a block lose their entries. -/
theorem ObserverBase.rel_freeUnits (absent : ∀ a, entry a none none) {table : OrdMap Address M}
    {table' : OrdMap Address M'} (entries : ∀ a : Address, entry a table[a]? table'[a]?) (units : List Address)
    (a : Address) : entry a (freeUnits units table)[a]? (freeUnits units table')[a]? := by
  induction units generalizing table table' with
  | nil => exact entries a
  | cons iaddr rest ih =>
    apply ih
    intro a
    rw [getElem?_erase_address, getElem?_erase_address]
    split
    · exact absent a
    · exact entries a

theorem ObserverBase.Rel.freeAddrRegion (absent : ∀ a, entry a none none) (rel : Rel dbs entry b b') (addr : Address) :
    Rel dbs entry (b.freeAddrRegion addr) (b'.freeAddrRegion addr) := by
  simp only [ObserverBase.freeAddrRegion, ← rel.filter, ← rel.unitSize]
  split
  · exact rel
  · exact ⟨rfl, rel.shadow, rfl, rel.irootDb, rel_freeUnits absent rel.entries _⟩

theorem ObserverBase.Rel.imageUnload (absent : ∀ a, entry a none none) (rel : Rel dbs entry b b') (debug : Bool)
    (lowAddr dataStart bssStart : Address) :
    Option.Rel (Rel dbs entry) (b.imageUnload debug lowAddr dataStart bssStart)
      (b'.imageUnload debug lowAddr dataStart bssStart) := by
  simp only [ObserverBase.imageUnload]
  cases assertIn debug (lowAddr ≠ 0) with
  | none => exact .none
  | some _ => exact .some ((rel.freeAddrRegion absent dataStart).freeAddrRegion absent bssStart)

end Rel

end Maple.Idiom
