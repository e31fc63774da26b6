import Maple.Core.BasicTypes
import Maple.Lib.Interning

/-! The iroot database of `idiom/iroot.cc`: events and iroots are created once and found
again through hash indices. The hashes are made of addresses, so two processes index the
same contents differently; what they find is the same. -/
namespace Maple.Idiom
open Interning

/-- `IDIOM_INVALID` is no idiom. -/
inductive IdiomType where
  | idiom1 | idiom2 | idiom3 | idiom4 | idiom5
  deriving DecidableEq

def IdiomType.word : IdiomType → BitVec 64
  | idiom1 => 1
  | idiom2 => 2
  | idiom3 => 3
  | idiom4 => 4
  | idiom5 => 5

/-- `iRoot::GetNumEvents`. -/
def IdiomType.numEvents : IdiomType → ℕ
  | idiom1 => 2
  | idiom2 => 3
  | idiom3 | idiom4 | idiom5 => 4

/-- `IROOT_EVENT_INVALID` is no event. -/
inductive IRootEventType where
  | memRead | memWrite | mutexLock | mutexUnlock
  deriving DecidableEq

def IRootEventType.word : IRootEventType → BitVec 64
  | memRead => 1
  | memWrite => 2
  | mutexLock => 3
  | mutexUnlock => 4

structure IRootEventProto where
  id : BitVec 32
  instId : BitVec 32
  type : IRootEventType

structure IRootProto where
  id : BitVec 32
  idiom : IdiomType
  eventId : List (BitVec 32)
  sized : eventId.length = idiom.numEvents

structure IRootDbProto where
  event : List IRootEventProto := []
  iroot : List IRootProto := []

/-- An `iRootEvent` object. Objects are told apart by their place in `proto_.event`. -/
structure IRootEvent where
  place : ℕ
  id : BitVec 32
  inst : Option InstId
  type : IRootEventType
  deriving DecidableEq

/-- What `FindiRootEvent` compares. -/
def IRootEvent.key (event : IRootEvent) : Option InstId × IRootEventType := (event.inst, event.type)

/-- An `iRoot` object, which has as many events as its idiom takes. -/
structure IRootObject where
  id : BitVec 32
  idiom : IdiomType
  events : List (Option IRootEvent)
  sized : events.length = idiom.numEvents
  deriving DecidableEq

/-- What `FindiRoot` compares. -/
def IRootObject.key (iroot : IRootObject) : IdiomType × List (Option IRootEvent) := (iroot.idiom, iroot.events)

/-- Where a process has its instructions and its event objects. -/
structure DbPointers where
  inst : InstId → BitVec 64
  event : ℕ → BitVec 64

namespace DbPointers

def hashiRootEvent (ptrs : DbPointers) (key : Option InstId × IRootEventType) : BitVec 64 :=
  (key.1.map ptrs.inst).getD 0 + key.2.word

def hashiRoot (ptrs : DbPointers) (key : IdiomType × List (Option IRootEvent)) : BitVec 64 :=
  key.2.foldl (fun hashVal event => hashVal + (event.map fun e => ptrs.event e.place).getD 0) key.1.word

end DbPointers

structure IRootDb where
  /-- `proto_.event_size()` -/
  eventSize : ℕ := 0
  events : Table 32 64 IRootEvent := {}
  iroots : Table 32 64 IRootObject := {}

namespace IRootDb

def findiRootEvent (ptrs : DbPointers) (db : IRootDb) (inst : InstId) (type : IRootEventType) : Option IRootEvent :=
  db.events.find (ptrs.hashiRootEvent (some inst, type)) (IRootEvent.key · = (some inst, type))

def createiRootEvent (ptrs : DbPointers) (db : IRootDb) (inst : InstId) (type : IRootEventType) :
    IRootDb × IRootEvent :=
  let (events, event) := db.events.create (ptrs.hashiRootEvent (some inst, type))
    fun id => { place := db.eventSize, id, inst := some inst, type }
  ({ db with eventSize := db.eventSize + 1, events }, event)

def getiRootEvent (ptrs : DbPointers) (db : IRootDb) (inst : InstId) (type : IRootEventType) : IRootDb × IRootEvent :=
  match db.findiRootEvent ptrs inst type with
  | some event => (db, event)
  | none => db.createiRootEvent ptrs inst type

def findiRoot (ptrs : DbPointers) (db : IRootDb) (idiom : IdiomType) (events : List (Option IRootEvent)) :
    Option IRootObject :=
  db.iroots.find (ptrs.hashiRoot (idiom, events)) (IRootObject.key · = (idiom, events))

def createiRoot (ptrs : DbPointers) (db : IRootDb) (idiom : IdiomType) (events : List (Option IRootEvent))
    (sized : events.length = idiom.numEvents) : IRootDb × IRootObject :=
  let (iroots, iroot) := db.iroots.create (ptrs.hashiRoot (idiom, events)) fun id => { id, idiom, events, sized }
  ({ db with iroots }, iroot)

def getiRoot (ptrs : DbPointers) (db : IRootDb) (idiom : IdiomType) (events : List (Option IRootEvent))
    (sized : events.length = idiom.numEvents) : IRootDb × IRootObject :=
  match db.findiRoot ptrs idiom events with
  | some iroot => (db, iroot)
  | none => db.createiRoot ptrs idiom events sized

/-- The events of a file. `FindInst` may not know an instruction. -/
def loadEvents (findInst : BitVec 32 → Option InstId) (proto : IRootDbProto) : List IRootEvent :=
  proto.event.zipIdx.map fun (eventProto, place) =>
    { place, id := eventProto.id, inst := findInst eventProto.instId, type := eventProto.type }

def loadiRoot (events : Table 32 64 IRootEvent) (irootProto : IRootProto) : IRootObject where
  id := irootProto.id
  idiom := irootProto.idiom
  events := irootProto.eventId.map fun id => events.byId[id]?
  sized := by rw [List.length_map, irootProto.sized]

def load (ptrs : DbPointers) (findInst : BitVec 32 → Option InstId) (proto : IRootDbProto) : IRootDb :=
  let events := Table.loadAll IRootEvent.id (fun event => ptrs.hashiRootEvent event.key) (loadEvents findInst proto)
  { eventSize := proto.event.length
    events
    iroots := Table.loadAll IRootObject.id (fun iroot => ptrs.hashiRoot iroot.key)
      (proto.iroot.map (loadiRoot events)) }

/-- The databases of two processes with the same contents. -/
structure Alike (ptrs ptrs' : DbPointers) (db db' : IRootDb) : Prop where
  eventSize : db.eventSize = db'.eventSize
  events : db.events.Alike IRootEvent.key ptrs.hashiRootEvent ptrs'.hashiRootEvent db'.events
  iroots : db.iroots.Alike IRootObject.key ptrs.hashiRoot ptrs'.hashiRoot db'.iroots

section Alike
variable {ptrs ptrs' : DbPointers} {db db' : IRootDb}

theorem alike_load (ptrs ptrs' : DbPointers) (findInst : BitVec 32 → Option InstId) (proto : IRootDbProto) :
    Alike ptrs ptrs' (load ptrs findInst proto) (load ptrs' findInst proto) := by
  have events : Table.Alike IRootEvent.key ptrs.hashiRootEvent ptrs'.hashiRootEvent
      (load ptrs findInst proto).events (load ptrs' findInst proto).events := Table.alike_loadAll _ _
  have read : loadiRoot (load ptrs findInst proto).events = loadiRoot (load ptrs' findInst proto).events := by
    funext irootProto
    simp only [loadiRoot, events.byId]
  refine ⟨rfl, events, ?_⟩
  change Table.Alike IRootObject.key ptrs.hashiRoot ptrs'.hashiRoot
    (Table.loadAll _ _ (proto.iroot.map (loadiRoot (load ptrs findInst proto).events)))
    (Table.loadAll _ _ (proto.iroot.map (loadiRoot (load ptrs' findInst proto).events)))
  rw [read]
  exact Table.alike_loadAll _ _

theorem Alike.getiRootEvent (alike : Alike ptrs ptrs' db db') (inst : InstId) (type : IRootEventType) :
    Alike ptrs ptrs' (db.getiRootEvent ptrs inst type).1 (db'.getiRootEvent ptrs' inst type).1 ∧
      (db.getiRootEvent ptrs inst type).2 = (db'.getiRootEvent ptrs' inst type).2 := by
  have found := alike.events.find (some inst, type)
  simp only [IRootDb.getiRootEvent, findiRootEvent, found]
  cases db'.events.find (ptrs'.hashiRootEvent (some inst, type)) (IRootEvent.key · = (some inst, type)) with
  | some event => exact ⟨alike, rfl⟩
  | none =>
    have made : ∀ id, IRootEvent.key { place := db.eventSize, id, inst := some inst, type } = (some inst, type) :=
      fun _ => rfl
    have created := alike.events.create made
    simp only [createiRootEvent, ← alike.eventSize]
    exact ⟨⟨rfl, created.1, alike.iroots⟩, created.2⟩

theorem Alike.getiRoot (alike : Alike ptrs ptrs' db db') (idiom : IdiomType) (events : List (Option IRootEvent))
    (sized : events.length = idiom.numEvents) :
    Alike ptrs ptrs' (db.getiRoot ptrs idiom events sized).1 (db'.getiRoot ptrs' idiom events sized).1 ∧
      (db.getiRoot ptrs idiom events sized).2 = (db'.getiRoot ptrs' idiom events sized).2 := by
  have found := alike.iroots.find (idiom, events)
  simp only [IRootDb.getiRoot, findiRoot, found]
  cases db'.iroots.find (ptrs'.hashiRoot (idiom, events)) (IRootObject.key · = (idiom, events)) with
  | some iroot => exact ⟨alike, rfl⟩
  | none =>
    have made : ∀ id, IRootObject.key { id, idiom, events, sized } = (idiom, events) := fun _ => rfl
    have created := alike.iroots.create made
    exact ⟨⟨alike.eventSize, alike.events, created.1⟩, created.2⟩

end Alike
end IRootDb
end Maple.Idiom
