import Maple.Idiom.IRootDb
import Maple.Lib.Numbering
import Maple.Sinst.DatabasesRuns

/-! The iroot database over any number of runs, beside the static information that it refers to. Every run has
its instructions and events at other addresses, so that its hash indices are new; the identifiers are those of
the catalogue of what the runs have seen. -/
namespace Maple.Idiom
open Static Sinst Interning

/-- The iroot database with the messages that it saves. -/
structure IRootStore where
  db : IRootDb := {}
  proto : IRootDbProto := {}

namespace IRootStore

def getiRootEvent (ptrs : DbPointers) (s : IRootStore) (inst : InstId) (instId : BitVec 32) (type : IRootEventType) :
    IRootStore × IRootEvent :=
  match s.db.findiRootEvent ptrs inst type with
  | some event => (s, event)
  | none =>
    let (db, event) := s.db.createiRootEvent ptrs inst type
    ({ db, proto := { s.proto with event := s.proto.event ++ [⟨event.id, instId, type⟩] } }, event)

/-- The events are given by their identifiers; one that is not there is a null pointer. -/
def getiRoot (ptrs : DbPointers) (s : IRootStore) (idiom : IdiomType) (ids : List (BitVec 32))
    (sized : ids.length = idiom.numEvents) : IRootStore × IRootObject :=
  let events := ids.map fun id => s.db.events.byId[id]?
  have many : events.length = idiom.numEvents := by rw [List.length_map, sized]
  match s.db.findiRoot ptrs idiom events with
  | some iroot => (s, iroot)
  | none =>
    let (db, iroot) := s.db.createiRoot ptrs idiom events many
    ({ db, proto := { s.proto with iroot := s.proto.iroot ++ [⟨iroot.id, idiom, ids, sized⟩] } }, iroot)

def load (ptrs : DbPointers) (findInst : BitVec 32 → Option InstId) (proto : IRootDbProto) : IRootStore :=
  { db := IRootDb.load ptrs findInst proto, proto }

def save (s : IRootStore) : IRootDbProto := s.proto

end IRootStore

/-- An instruction with what is done there. -/
abbrev EventKey := (String × Address) × IRootEventType

inductive IRootCall where
  | static (e : Sinst.Event)
  | event (image : Option String) (offset : Address) (source : DebugInfoProto) (type : IRootEventType)
  | iroot (idiom : IdiomType) (ids : List (BitVec 32)) (sized : ids.length = idiom.numEvents)
  | findiRoot (id : BitVec 32)

inductive IRootAnswer where
  | static (answer : Answer)
  | event (id : BitVec 32)
  | iroot (id : BitVec 32)
  | found (iroot : Option (IdiomType × List (Option EventKey)))

structure IRootRuns where
  base : Databases := .first
  store : IRootStore := {}
  run : ℕ := 0

namespace IRootRuns

/-- `inst->image()->name()` and `inst->offset()`. -/
def placeOf (sinfo : StaticInfo) (inst : InstId) : Option (String × Address) := do
  let message ← sinfo.proto.inst[inst]?
  let image ← sinfo.findImage message.imageId
  let home ← sinfo.proto.image[image]?
  return (home.name, message.offset)

def describeEvent (sinfo : StaticInfo) (event : IRootEvent) : Option EventKey := do
  let inst ← event.inst
  let place ← placeOf sinfo inst
  return (place, event.type)

def describe (sinfo : StaticInfo) (iroot : IRootObject) : IdiomType × List (Option EventKey) :=
  (iroot.idiom, iroot.events.map fun event => event.bind (describeEvent sinfo))

/-- `ptrs n` are the addresses of run `n`. The static information is loaded first. -/
def step (ptrs : ℕ → DbPointers) (s : IRootRuns) : IRootCall → Option (IRootRuns × IRootAnswer)
  | .static e => do
    let (base, answer) ← s.base.step e
    if e = .restart then
      let store := IRootStore.load (ptrs (s.run + 1)) base.sinfo.findInst s.store.save
      return ({ base, store, run := s.run + 1 }, .static answer)
    else return ({ s with base }, .static answer)
  | .event image offset source type => do
    let (sinfo, inst) ← s.base.sinfo.getInst image offset source
    let id ← (sinfo.proto.inst[inst]?).map InstProto.id
    let (store, event) := s.store.getiRootEvent (ptrs s.run) inst id type
    return ({ s with base := { s.base with sinfo }, store }, .event event.id)
  | .iroot idiom ids sized =>
    let (store, iroot) := s.store.getiRoot (ptrs s.run) idiom ids sized
    some ({ s with store }, .iroot iroot.id)
  | .findiRoot id => some (s, .found ((s.store.db.iroots.byId[id]?).map (describe s.base.sinfo)))

/-- An iroot is made of events that the run has got. -/
def Allows (s : IRootRuns) : IRootCall → Prop
  | .static e => s.base.Allows e
  | .event image offset source _ => s.base.Allows (.use image offset source .lookup)
  | .iroot _ ids _ => (ids.all fun id => (s.store.db.events.byId[id]?).isSome) = true
  | .findiRoot _ => True

instance decidableAllows (s : IRootRuns) (e : IRootCall) : Decidable (s.Allows e) := by
  induction e using IRootCall.casesOn <;> simp only [Allows] <;> infer_instance

end IRootRuns

/-- An iroot by the identifiers of its events. -/
@[ext]
structure IRootKey where
  idiom : IdiomType
  eventId : List (BitVec 32)
  sized : eventId.length = idiom.numEvents
  deriving DecidableEq

/-- What the runs have seen. -/
structure IRootCatalogue where
  base : Catalogue := {}
  events : List EventKey := []
  iroots : List IRootKey := []

namespace IRootCatalogue

def apply (c : IRootCatalogue) : IRootCall → IRootCatalogue
  | .static e => { c with base := c.base.apply e }
  | .event image offset source type =>
    { c with
      base := c.base.see (image.getD pseudoImageName, offset) source
      events := enter ((image.getD pseudoImageName, offset), type) c.events }
  | .iroot idiom ids sized => { c with iroots := enter ⟨idiom, ids, sized⟩ c.iroots }
  | .findiRoot _ => c

def eventId (c : IRootCatalogue) (e : EventKey) : BitVec 32 := BitVec.ofNat 32 (c.events.idxOf e + 1)

def irootId (c : IRootCatalogue) (key : IRootKey) : BitVec 32 := BitVec.ofNat 32 (c.iroots.idxOf key + 1)

/-- What an iroot is about. -/
def describe (c : IRootCatalogue) (key : IRootKey) : IdiomType × List (Option EventKey) :=
  (key.idiom, key.eventId.map (Table.nth c.events))

/-- What a call is answered, when the identifiers are those of the catalogue `all`. -/
def answer (all c : IRootCatalogue) : IRootCall → IRootAnswer
  | .static e => .static (Catalogue.answer all.base c.base e)
  | .event image offset _ type => .event (all.eventId ((image.getD pseudoImageName, offset), type))
  | .iroot idiom ids sized => .iroot (all.irootId ⟨idiom, ids, sized⟩)
  | .findiRoot id => .found ((Table.nth c.iroots id).map all.describe)

def answers (all : IRootCatalogue) : IRootCatalogue → List IRootCall → List IRootAnswer
  | _, [] => []
  | c, e :: tr => all.answer c e :: answers all (c.apply e) tr

/-- The file. -/
def encode (c : IRootCatalogue) : IRootDbProto where
  event := c.events.mapIdx fun k e => ⟨BitVec.ofNat 32 (k + 1), c.base.instId e.1, e.2⟩
  iroot := c.iroots.mapIdx fun k key => ⟨BitVec.ofNat 32 (k + 1), key.idiom, key.eventId, key.sized⟩

def eventObject (c : IRootCatalogue) (k : ℕ) (e : EventKey) : IRootEvent where
  place := k
  id := BitVec.ofNat 32 (k + 1)
  inst := some (c.base.places.idxOf e.1)
  type := e.2

def eventObjects (c : IRootCatalogue) : List IRootEvent := c.events.mapIdx c.eventObject

def irootObject (c : IRootCatalogue) (k : ℕ) (key : IRootKey) : IRootObject where
  id := BitVec.ofNat 32 (k + 1)
  idiom := key.idiom
  events := key.eventId.map (Table.nth c.eventObjects)
  sized := by rw [List.length_map, key.sized]

def irootObjects (c : IRootCatalogue) : List IRootObject := c.iroots.mapIdx c.irootObject

/-- Nothing is listed twice, events are at instructions and iroots are made of events. -/
structure Ok (c : IRootCatalogue) : Prop where
  eventRoom : c.events.length < 2 ^ 32
  irootRoom : c.iroots.length < 2 ^ 32
  places : ∀ e ∈ c.events, e.1 ∈ c.base.places
  events : c.events.Nodup
  parts : ∀ key ∈ c.iroots, ∀ id ∈ key.eventId, ∃ e, Table.nth c.events id = some e
  iroots : c.iroots.Nodup

/-- One catalogue after more calls. -/
structure Grows (c c' : IRootCatalogue) : Prop where
  base : c.base.Grows c'.base
  events : c.events <+: c'.events
  iroots : c.iroots <+: c'.iroots

end IRootCatalogue

/-- The databases hold the catalogue. -/
structure IRootRefines (ptrs : ℕ → DbPointers) (s : IRootRuns) (c : IRootCatalogue) : Prop where
  base : Refines s.base c.base
  ok : c.Ok
  proto : s.store.proto = c.encode
  eventSize : s.store.db.eventSize = c.events.length
  events : s.store.db.events.Numbered IRootEvent.id IRootEvent.key (ptrs s.run).hashiRootEvent c.eventObjects
  iroots : s.store.db.iroots.Numbered IRootObject.id IRootObject.key (ptrs s.run).hashiRoot c.irootObjects

end Maple.Idiom
