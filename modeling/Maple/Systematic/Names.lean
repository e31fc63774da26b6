import Maple.Core.BasicTypes
import Maple.Lib.Interning
import Maple.Lib.Runs

/-! The names of threads and objects of `systematic/program.cc` and the messages of
`systematic/program.proto` that they are saved in. Pointers to threads, images and
instructions are used only for their identifiers. -/
namespace Maple.Systematic.Names

/-- What `Load` asks of `core/static_info.cc`. -/
structure StaticInfo where
  findImage : BitVec 32 → Bool
  findInst : BitVec 32 → Bool

/-- The main thread has no creator. -/
structure Thread where
  uid : BitVec 32
  creator : Option (BitVec 32) := none
  creatorIdx : BitVec 32 := 0
  deriving DecidableEq

inductive Object where
  | sobject (uid imageId : BitVec 32) (offset : Address)
  | dobject (uid creator creatorInst creatorIdx : BitVec 32) (offset : Address)
  deriving DecidableEq

abbrev ThreadKey := Option (BitVec 32 × BitVec 32)

inductive ObjectKey where
  | static (imageId : BitVec 32) (offset : Address)
  | dynamic (creator creatorInst creatorIdx : BitVec 32) (offset : Address)
  deriving DecidableEq

/-- What `Match` compares of a thread. -/
def Thread.key (t : Thread) : ThreadKey := t.creator.map (·, t.creatorIdx)

def Thread.hash : ThreadKey → BitVec 64
  | none => 0
  | some (creator, creatorIdx) => creator.setWidth 64 + creatorIdx.setWidth 64

def Object.uid : Object → BitVec 32
  | sobject uid _ _ => uid
  | dobject uid _ _ _ _ => uid

/-- What `Match` compares of an object. The casts keep the two kinds apart. -/
def Object.key : Object → ObjectKey
  | sobject _ imageId offset => .static imageId offset
  | dobject _ creator creatorInst creatorIdx offset => .dynamic creator creatorInst creatorIdx offset

def Object.hash : ObjectKey → BitVec 64
  | .static imageId offset => imageId.setWidth 64 + offset
  | .dynamic creator creatorInst creatorIdx offset =>
    creator.setWidth 64 + creatorInst.setWidth 64 + creatorIdx.setWidth 64 + offset

structure ThreadProto where
  uid : BitVec 32
  creatorUid : Option (BitVec 32) := none
  creatorIdx : BitVec 32 := 0
  deriving DecidableEq

structure SObjectProto where
  uid : BitVec 32
  imageId : BitVec 32
  offset : Address
  deriving DecidableEq

structure DObjectProto where
  uid : BitVec 32
  creatorUid : BitVec 32
  creatorInstId : BitVec 32
  creatorIdx : BitVec 32
  offset : Address
  deriving DecidableEq

structure ProgramProto where
  thread : List ThreadProto := []
  sobject : List SObjectProto := []
  dobject : List DObjectProto := []
  deriving DecidableEq

/-- The same messages in another order, since the tables are iterated in any order. -/
structure ProgramProto.Reordered (p q : ProgramProto) : Prop where
  thread : p.thread.Perm q.thread
  sobject : p.sobject.Perm q.sobject
  dobject : p.dobject.Perm q.dobject

instance (p q : ProgramProto) : Decidable (p.Reordered q) :=
  decidable_of_iff (p.thread.Perm q.thread ∧ p.sobject.Perm q.sobject ∧ p.dobject.Perm q.dobject)
    ⟨fun ⟨threads, sobjects, dobjects⟩ => ⟨threads, sobjects, dobjects⟩,
      fun same => ⟨same.thread, same.sobject, same.dobject⟩⟩

structure Program where
  threads : Interning.Table 32 64 Thread := {}
  objects : Interning.Table 32 64 Object := {}

namespace Program

def findThread (p : Program) (uid : BitVec 32) : Option Thread := p.threads.byId[uid]?

def findObject (p : Program) (uid : BitVec 32) : Option Object := p.objects.byId[uid]?

/-- The main thread always has the identifier 1. -/
def getMainThread (p : Program) : Option (Program × Thread) :=
  match p.findThread 1 with
  | some mainThd => some (p, mainThd)
  | none => do
    debugAssert (p.threads.curr = 0)
    let created := p.threads.create (Thread.hash none) fun uid => { uid := uid }
    return ({ p with threads := created.1 }, created.2)

def getThread (p : Program) (creator creatorIdx : BitVec 32) : Program × Thread :=
  let key := some (creator, creatorIdx)
  let got := p.threads.get (Thread.hash key) (fun thd => thd.key = key) fun uid => ⟨uid, creator, creatorIdx⟩
  ({ p with threads := got.1 }, got.2)

def getSObject (p : Program) (imageId : BitVec 32) (offset : Address) : Program × Object :=
  let key := .static imageId offset
  let got := p.objects.get (Object.hash key) (fun obj => obj.key = key) fun uid => .sobject uid imageId offset
  ({ p with objects := got.1 }, got.2)

def getDObject (p : Program) (creator creatorInst creatorIdx : BitVec 32) (offset : Address) : Program × Object :=
  let key := .dynamic creator creatorInst creatorIdx offset
  let got := p.objects.get (Object.hash key) (fun obj => obj.key = key)
    fun uid => .dobject uid creator creatorInst creatorIdx offset
  ({ p with objects := got.1 }, got.2)

/-- The first pass over the threads, where creators may not be there yet. -/
def loadUid (t : Interning.Table 32 64 Thread) (p : ThreadProto) : Interning.Table 32 64 Thread :=
  { t with byId := t.byId.insert p.uid { uid := p.uid }, curr := if t.curr < p.uid then p.uid else t.curr }

/-- The second pass. The thread that the table of identifiers points to is completed. -/
def loadThread (t : Interning.Table 32 64 Thread) (p : ThreadProto) : Option (Interning.Table 32 64 Thread) := do
  let thd ← t.byId[p.uid]?
  let thd ← match p.creatorUid with
    | some creatorUid => do
      let creator ← t.byId[creatorUid]?
      pure { thd with creator := some creator.uid, creatorIdx := p.creatorIdx }
    | none => pure thd
  return t.add p.uid (Thread.hash thd.key) thd

def loadSObject (sinfo : StaticInfo) (t : Interning.Table 32 64 Object) (p : SObjectProto) :
    Option (Interning.Table 32 64 Object) := do
  debugAssert (sinfo.findImage p.imageId = true)
  let obj : Object := .sobject p.uid p.imageId p.offset
  return t.load p.uid (Object.hash obj.key) obj

def loadDObject (sinfo : StaticInfo) (threads : Interning.Table 32 64 Thread) (t : Interning.Table 32 64 Object)
    (p : DObjectProto) : Option (Interning.Table 32 64 Object) := do
  let creator ← threads.byId[p.creatorUid]?
  debugAssert (sinfo.findInst p.creatorInstId = true)
  let obj : Object := .dobject p.uid creator.uid p.creatorInstId p.creatorIdx p.offset
  return t.load p.uid (Object.hash obj.key) obj

/-- `Load` into a fresh program. -/
def load (sinfo : StaticInfo) (p : ProgramProto) : Option Program := do
  let threads ← p.thread.foldlM loadThread (p.thread.foldl loadUid {})
  let objects ← p.sobject.foldlM (loadSObject sinfo) {}
  let objects ← p.dobject.foldlM (loadDObject sinfo threads) objects
  return { threads := threads, objects := objects }

end Program

def Thread.toProto (t : Thread) : ThreadProto :=
  match t.creator with
  | some creator => ⟨t.uid, some creator, t.creatorIdx⟩
  | none => { uid := t.uid }

def Object.toSObjectProto : Object → Option SObjectProto
  | sobject uid imageId offset => some ⟨uid, imageId, offset⟩
  | dobject _ _ _ _ _ => none

def Object.toDObjectProto : Object → Option DObjectProto
  | sobject _ _ _ => none
  | dobject uid creator creatorInst creatorIdx offset => some ⟨uid, creator, creatorInst, creatorIdx, offset⟩

def Program.save (p : Program) : ProgramProto where
  thread := p.threads.byId.toList.map fun entry => entry.2.toProto
  sobject := p.objects.byId.toList.filterMap fun entry => entry.2.toSObjectProto
  dobject := p.objects.byId.toList.filterMap fun entry => entry.2.toDObjectProto

/-- Calls name a thread by its identifier. -/
inductive Call where
  | getMainThread
  | getThread (creator creatorIdx : BitVec 32)
  | getSObject (imageId : BitVec 32) (offset : Address)
  | getDObject (creator creatorInst creatorIdx : BitVec 32) (offset : Address)

/-- A call, or a save at the end of a run and a load of these messages in the next one. -/
inductive Event where
  | call (call : Call)
  | restart (p : ProgramProto)

/-- The uid that a call returns. -/
inductive Uid where
  | thread (uid : BitVec 32)
  | object (uid : BitVec 32)
  deriving DecidableEq

inductive Key where
  | thread (key : ThreadKey)
  | object (key : ObjectKey)
  deriving DecidableEq

def Call.key : Call → Key
  | getMainThread => .thread none
  | getThread creator creatorIdx => .thread (some (creator, creatorIdx))
  | getSObject imageId offset => .object (.static imageId offset)
  | getDObject creator creatorInst creatorIdx offset => .object (.dynamic creator creatorInst creatorIdx offset)

namespace Program

def call (p : Program) : Call → Option (Program × Uid)
  | .getMainThread => p.getMainThread.map fun got => (got.1, .thread got.2.uid)
  | .getThread creator creatorIdx =>
    let got := p.getThread creator creatorIdx
    some (got.1, .thread got.2.uid)
  | .getSObject imageId offset =>
    let got := p.getSObject imageId offset
    some (got.1, .object got.2.uid)
  | .getDObject creator creatorInst creatorIdx offset =>
    let got := p.getDObject creator creatorInst creatorIdx offset
    some (got.1, .object got.2.uid)

def step (sinfo : StaticInfo) (p : Program) : Event → Option (Program × Option Uid)
  | .call call => (p.call call).map fun got => (got.1, some got.2)
  | .restart proto => (load sinfo proto).map fun next => (next, none)

/-- Calls are about threads of the program and about images and instructions of the
static information, and a run loads what the last one saved. -/
def Allows (sinfo : StaticInfo) (p : Program) : Event → Prop
  | .call .getMainThread => True
  | .call (.getThread creator _) => creator ∈ p.threads.byId
  | .call (.getSObject imageId _) => sinfo.findImage imageId = true
  | .call (.getDObject creator creatorInst _ _) => creator ∈ p.threads.byId ∧ sinfo.findInst creatorInst = true
  | .restart proto => proto.Reordered p.save

instance (sinfo : StaticInfo) (p : Program) (e : Event) : Decidable (Allows sinfo p e) := by
  rcases e with call | proto
  · induction call using Call.casesOn <;> simp only [Allows] <;> infer_instance
  · simp only [Allows]
    infer_instance

end Program
end Maple.Systematic.Names
