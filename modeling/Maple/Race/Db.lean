import Maple.Lib.Interning
import Maple.Lib.Runs
import Maple.Race.Detector

/-! The race database of `race/race.cc` and the messages of `race/race.proto` that it
is saved in. Hash tables are iterated in an order that is left open. -/
namespace Maple.Race
set_option linter.dupNamespace false

/-- What the database uses of `core/static_info.cc`. -/
structure StaticInfo where
  findInst : BitVec 32 → Option InstId
  instId : InstId → BitVec 32

/-- An instruction that was created by the static information. -/
def StaticInfo.Has (sinfo : StaticInfo) (inst : InstId) : Prop := sinfo.findInst (sinfo.instId inst) = some inst

instance (sinfo : StaticInfo) (inst : InstId) : Decidable (sinfo.Has inst) :=
  inferInstanceAs (Decidable (_ = _))

/-- The addresses of instructions and of the events that a process allocates, by the
order of their allocation. -/
structure Memory where
  inst : InstId → BitVec 64
  event : ℕ → BitVec 64

/-- `ptr` counts allocations; two pointers are equal if these are. -/
structure StaticRaceEvent where
  ptr : ℕ
  id : BitVec 32
  inst : InstId
  type : RaceEventType

structure StaticRace where
  id : BitVec 32
  eventVec : List StaticRaceEvent

structure RaceEvent where
  thdId : ThreadId
  staticEvent : StaticRaceEvent

structure Race where
  execId : ℕ
  addr : Address
  eventVec : List RaceEvent
  staticRace : StaticRace

structure StaticRaceEventProto where
  id : BitVec 32
  instId : BitVec 32
  type : RaceEventType
  deriving DecidableEq

structure StaticRaceProto where
  id : BitVec 32
  eventId : List (BitVec 32)
  deriving DecidableEq

structure RaceEventProto where
  thdId : ThreadId
  staticId : BitVec 32
  deriving DecidableEq

structure RaceProto where
  execId : ℕ
  addr : Address
  event : List RaceEventProto
  staticId : BitVec 32
  deriving DecidableEq

structure RaceDBProto where
  staticEvent : List StaticRaceEventProto := []
  staticRace : List StaticRaceProto := []
  race : List RaceProto := []
  racyInstId : List (BitVec 32) := []
  deriving DecidableEq

/-- The same messages, where what comes from hash tables may be in another order. -/
structure RaceDBProto.Reordered (p q : RaceDBProto) : Prop where
  staticEvent : p.staticEvent.Perm q.staticEvent
  staticRace : p.staticRace.Perm q.staticRace
  race : p.race = q.race
  racyInstId : p.racyInstId.Perm q.racyInstId

instance (p q : RaceDBProto) : Decidable (p.Reordered q) :=
  decidable_of_iff (p.staticEvent.Perm q.staticEvent ∧ p.staticRace.Perm q.staticRace ∧ p.race = q.race ∧
      p.racyInstId.Perm q.racyInstId)
    ⟨fun ⟨events, races, race, racy⟩ => ⟨events, races, race, racy⟩,
      fun same => ⟨same.staticEvent, same.staticRace, same.race, same.racyInstId⟩⟩

/-- The value of the enumeration. -/
def RaceEventType.word : RaceEventType → BitVec 64
  | .read => 1
  | .write => 2

/-- What `Match` compares of an event. -/
def StaticRaceEvent.key (e : StaticRaceEvent) : InstId × RaceEventType := (e.inst, e.type)

def StaticRaceEvent.hash (mem : Memory) (key : InstId × RaceEventType) : BitVec 64 := mem.inst key.1 + key.2.word

/-- What `Match` compares of a static race. -/
def StaticRace.key (r : StaticRace) : List ℕ := r.eventVec.map (·.ptr)

def StaticRace.hash (mem : Memory) (key : List ℕ) : BitVec 64 :=
  key.foldl (fun hashVal ptr => hashVal + mem.event ptr) 0

def StaticRaceEvent.toProto (sinfo : StaticInfo) (e : StaticRaceEvent) : StaticRaceEventProto :=
  ⟨e.id, sinfo.instId e.inst, e.type⟩

def StaticRace.toProto (r : StaticRace) : StaticRaceProto := ⟨r.id, r.eventVec.map (·.id)⟩

def RaceEvent.toProto (e : RaceEvent) : RaceEventProto := ⟨e.thdId, e.staticEvent.id⟩

def Race.toProto (r : Race) : RaceProto := ⟨r.execId, r.addr, r.eventVec.map RaceEvent.toProto, r.staticRace.id⟩

/-- `mem` and `allocated` are of the process that the database lives in. -/
structure RaceDB where
  mem : Memory
  allocated : ℕ := 0
  staticEvents : Interning.Table 32 64 StaticRaceEvent := {}
  staticRaces : Interning.Table 32 64 StaticRace := {}
  currExecId : ℕ := 0
  raceVec : List Race := []
  racyInstSet : Std.ExtTreeSet InstId := ∅

namespace RaceDB

def getStaticRaceEvent (db : RaceDB) (inst : InstId) (type : RaceEventType) : RaceDB × StaticRaceEvent :=
  let got := db.staticEvents.get (StaticRaceEvent.hash db.mem (inst, type))
    (fun e => e.key = (inst, type)) (fun id => ⟨db.allocated, id, inst, type⟩)
  ({ db with staticEvents := got.1, allocated := db.allocated + 1 }, got.2)

def getStaticRace (db : RaceDB) (e0 e1 : StaticRaceEvent) : RaceDB × StaticRace :=
  let got := db.staticRaces.get (StaticRace.hash db.mem [e0.ptr, e1.ptr])
    (fun r => r.key = [e0.ptr, e1.ptr]) (fun id => ⟨id, [e0, e1]⟩)
  ({ db with staticRaces := got.1 }, got.2)

def createRace (db : RaceDB) (r : RaceReport) : RaceDB × Race :=
  let (db, e0) := db.getStaticRaceEvent r.i0 r.p0
  let (db, e1) := db.getStaticRaceEvent r.i1 r.p1
  let (db, staticRace) := db.getStaticRace e0 e1
  let race : Race := ⟨db.currExecId, r.addr, [⟨r.t0, e0⟩, ⟨r.t1, e1⟩], staticRace⟩
  ({ db with raceVec := db.raceVec ++ [race] }, race)

def setRacyInst (db : RaceDB) (inst : InstId) : RaceDB :=
  { db with racyInstSet := db.racyInstSet.insert inst }

def racyInst (db : RaceDB) (inst : InstId) : Bool := db.racyInstSet.contains inst

def loadStaticEvent (sinfo : StaticInfo) (db : RaceDB) (p : StaticRaceEventProto) : Option RaceDB := do
  let inst ← sinfo.findInst p.instId
  let e : StaticRaceEvent := ⟨db.allocated, p.id, inst, p.type⟩
  return { db with
    staticEvents := db.staticEvents.load e.id (StaticRaceEvent.hash db.mem e.key) e
    allocated := db.allocated + 1 }

/-- `FindStaticRaceEvent` by identifier. -/
def findStaticRaceEvent (db : RaceDB) (id : BitVec 32) : Option StaticRaceEvent := db.staticEvents.byId[id]?

def findStaticRace (db : RaceDB) (id : BitVec 32) : Option StaticRace := db.staticRaces.byId[id]?

def loadStaticRace (db : RaceDB) (p : StaticRaceProto) : Option RaceDB := do
  let eventVec ← p.eventId.mapM db.findStaticRaceEvent
  let r : StaticRace := ⟨p.id, eventVec⟩
  return { db with staticRaces := db.staticRaces.load r.id (StaticRace.hash db.mem r.key) r }

def loadRace (db : RaceDB) (p : RaceProto) : Option RaceDB := do
  let eventVec ← p.event.mapM fun e => (db.findStaticRaceEvent e.staticId).map (RaceEvent.mk e.thdId)
  let staticRace ← db.findStaticRace p.staticId
  return { db with
    raceVec := db.raceVec ++ [⟨p.execId, p.addr, eventVec, staticRace⟩]
    currExecId := if db.currExecId < p.execId then p.execId else db.currExecId }

def loadRacyInst (sinfo : StaticInfo) (db : RaceDB) (instId : BitVec 32) : Option RaceDB := do
  let inst ← sinfo.findInst instId
  return db.setRacyInst inst

/-- `curr_exec_id_++` on an `int`, for which an overflow is undefined. -/
def nextExec (db : RaceDB) : Option RaceDB :=
  if db.currExecId + 1 < 2 ^ 31 then some { db with currExecId := db.currExecId + 1 } else none

/-- `Load` into a fresh database of a process with the given addresses. -/
def load (sinfo : StaticInfo) (mem : Memory) (p : RaceDBProto) : Option RaceDB := do
  let db ← p.staticEvent.foldlM (loadStaticEvent sinfo) { mem := mem }
  let db ← p.staticRace.foldlM loadStaticRace db
  let db ← p.race.foldlM loadRace db
  let db ← db.nextExec
  p.racyInstId.foldlM (loadRacyInst sinfo) db

def save (sinfo : StaticInfo) (db : RaceDB) : RaceDBProto where
  staticEvent := db.staticEvents.byId.toList.map fun entry => entry.2.toProto sinfo
  staticRace := db.staticRaces.byId.toList.map fun entry => entry.2.toProto
  race := db.raceVec.map Race.toProto
  racyInstId := db.racyInstSet.toList.map sinfo.instId

end RaceDB

/-- What happens to the database: a call, or a save at the end of a run and a load of
these messages in the next one. -/
inductive DbEvent where
  | call (call : DbCall)
  | restart (mem : Memory) (p : RaceDBProto)

namespace RaceDB

def step (sinfo : StaticInfo) (db : RaceDB) : DbEvent → Option (RaceDB × Option Race)
  | .call (.createRace r) => some ((db.createRace r).1, some (db.createRace r).2)
  | .call (.setRacyInst inst) => some (db.setRacyInst inst, none)
  | .restart mem p => (load sinfo mem p).map fun db => (db, none)

/-- Calls are about instructions of the static information, and a run loads what the
last one saved. -/
def Allows (sinfo : StaticInfo) (db : RaceDB) : DbEvent → Prop
  | .call (.createRace r) => sinfo.Has r.i0 ∧ sinfo.Has r.i1
  | .call (.setRacyInst inst) => sinfo.Has inst
  | .restart _ p => p.Reordered (db.save sinfo)

instance (sinfo : StaticInfo) (db : RaceDB) (e : DbEvent) : Decidable (Allows sinfo db e) := by
  unfold Allows
  split <;> infer_instance

end RaceDB
end Maple.Race
