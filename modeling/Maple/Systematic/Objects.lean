import Maple.Systematic.NamesRuns
import Maple.Core.Regions

/-! How the controller of `systematic/controller.cpp` finds the thread and the object of a
scheduling point. Memory is named by the region that it lies in, and an allocated region by
its creator, the instruction, and how often the creator has allocated there. -/
namespace Maple.Systematic.Objects
open Names (StaticInfo Program ProgramProto)

/-- `SRegion` and `DRegion`. -/
inductive Region where
  | sregion (block : Maple.Region) (image : BitVec 32)
  | dregion (block : Maple.Region) (creator creatorInst creatorIdx : BitVec 32)
  deriving DecidableEq

def Region.block : Region → Maple.Region
  | sregion block _ => block
  | dregion block _ _ _ => block

def Region.isStatic : Region → Bool
  | sregion _ _ => true
  | dregion _ _ _ _ => false

structure CreationInfo where
  creatorThdId : ThreadId
  creatorInst : BitVec 32
  currCreatorIdx : BitVec 32 := 0

def CreationInfo.hash (thd : ThreadId) (inst : BitVec 32) : BitVec 64 := BitVec.ofNat 64 thd + inst.setWidth 64

def CreationInfo.isMatch (info : CreationInfo) (thd : ThreadId) (inst : BitVec 32) : Bool :=
  info.creatorThdId = thd ∧ info.creatorInst = inst

/-- The part of the controller that names things. -/
structure Naming where
  program : Program := {}
  mainThreadStarted : Bool := false
  threadTable : OrdMap ThreadId (BitVec 32) := {}
  threadCreationInfo : OrdMap ThreadId (BitVec 32) := {}
  creationInfo : OrdMap (BitVec 64) (List CreationInfo) := {}
  regionTable : OrdMap Address Region := {}

/-- The search in one bucket. -/
def nextCreatorIdx (thd : ThreadId) (inst : BitVec 32) : List CreationInfo → List CreationInfo × BitVec 32
  | [] => ([⟨thd, inst, 0 + 1⟩], 0 + 1)
  | info :: vec =>
    if info.isMatch thd inst then
      ({ info with currCreatorIdx := info.currCreatorIdx + 1 } :: vec, info.currCreatorIdx + 1)
    else
      let (vec, idx) := nextCreatorIdx thd inst vec
      (info :: vec, idx)

/-- The last index that came from a bucket. -/
def currIdx (thd : ThreadId) (inst : BitVec 32) (vec : List CreationInfo) : BitVec 32 :=
  ((vec.find? (·.isMatch thd inst)).map CreationInfo.currCreatorIdx).getD 0

namespace Naming

def getCreatorIdx (c : Naming) (thd : ThreadId) (inst : BitVec 32) : Naming × BitVec 32 :=
  let hash := CreationInfo.hash thd inst
  let (vec, idx) := nextCreatorIdx thd inst (c.creationInfo[hash]?.getD [])
  ({ c with creationInfo := c.creationInfo.insert hash vec }, idx)

def findThread (c : Naming) (thd : ThreadId) : Option (BitVec 32) := c.threadTable[thd]?

/-- The entry before `upper_bound(iaddr)` is the last one that starts at or below it. -/
def findRegion (c : Naming) (iaddr : Address) : Option Region :=
  match c.regionTable.getEntryLE? iaddr with
  | none => none
  | some (_, region) =>
    if region.block.addr ≤ iaddr ∧ iaddr < region.block.addr + region.block.size then some region else none

def allocSRegion (c : Naming) (addr size : Address) (image : BitVec 32) : Naming :=
  { c with regionTable := c.regionTable.insert addr (.sregion ⟨addr, size⟩ image) }

def allocDRegion (c : Naming) (thd : ThreadId) (addr size : Address) (inst : BitVec 32) : Option Naming := do
  let creator ← c.findThread thd
  let (c, creatorIdx) := c.getCreatorIdx thd inst
  return { c with regionTable := c.regionTable.insert addr (.dregion ⟨addr, size⟩ creator inst creatorIdx) }

def freeSRegion (c : Naming) (addr : Address) : Option Naming :=
  match c.regionTable[addr]? with
  | none => some c
  | some region => do
    debugAssert (region.isStatic = true)
    return { c with regionTable := c.regionTable.erase addr }

def freeDRegion (c : Naming) (addr : Address) : Option Naming :=
  match c.regionTable[addr]? with
  | none => some c
  | some region => do
    debugAssert (region.isStatic = false)
    return { c with regionTable := c.regionTable.erase addr }

def getObject (c : Naming) (iaddr : Address) : Option (Naming × BitVec 32) := do
  match ← c.findRegion iaddr with
  | .sregion block image =>
    let (program, obj) := c.program.getSObject image (iaddr - block.addr)
    return ({ c with program := program }, obj.uid)
  | .dregion block creator creatorInst creatorIdx =>
    let (program, obj) := c.program.getDObject creator creatorInst creatorIdx (iaddr - block.addr)
    return ({ c with program := program }, obj.uid)

/-- The thread and the object of `CreateAction`. -/
def createAction (c : Naming) (thd : ThreadId) (iaddr : Address) :
    Option (Naming × BitVec 32 × Option (BitVec 32)) := do
  let own ← c.findThread thd
  if iaddr = 0 then return (c, own, none)
  let (c, obj) ← c.getObject iaddr
  return (c, own, some obj)

/-- A section of an image, which is there when it has a start. -/
def loadSection (c : Naming) (image : BitVec 32) (start size : Address) : Option Naming :=
  if start = 0 then some c
  else do
    debugAssert (size ≠ 0)
    return c.allocSRegion start size image

def unloadSection (c : Naming) (start : Address) : Option Naming :=
  if start = 0 then some c else c.freeSRegion start

def handleImageLoad (c : Naming) (image : BitVec 32) (dataStart dataSize bssStart bssSize : Address) :
    Option Naming := do
  let c ← c.loadSection image dataStart dataSize
  c.loadSection image bssStart bssSize

def handleImageUnload (c : Naming) (dataStart bssStart : Address) : Option Naming := do
  let c ← c.unloadSection dataStart
  c.unloadSection bssStart

/-- The entries of a thread that starts. -/
def addThread (c : Naming) (thd : ThreadId) (uid : BitVec 32) : Naming :=
  { c with
    mainThreadStarted := true
    threadTable := c.threadTable.insert thd uid
    threadCreationInfo := c.threadCreationInfo.insert thd 0 }

def handleThreadStart (c : Naming) (thd parent : ThreadId) : Option (Naming × BitVec 32) := do
  if c.mainThreadStarted = false then
    let (program, curr) ← c.program.getMainThread
    return ({ c with program := program }.addThread thd curr.uid, curr.uid)
  debugAssert (parent ≠ invalidThdId)
  let parentThd ← c.findThread parent
  let creatorIdx := c.threadCreationInfo[parent]?.getD 0 + 1
  let c := { c with threadCreationInfo := c.threadCreationInfo.insert parent creatorIdx }
  let (program, curr) := c.program.getThread parentThd creatorIdx
  return ({ c with program := program }.addThread thd curr.uid, curr.uid)

end Naming

/-- `malloc` also stands for `Valloc` and for the second half of `Realloc`, and `free` for
its first half. -/
inductive Event where
  | imageLoad (image : BitVec 32) (dataStart dataSize bssStart bssSize : Address)
  | imageUnload (dataStart bssStart : Address)
  | threadStart (thd parent : ThreadId)
  | malloc (thd : ThreadId) (inst : BitVec 32) (size ret : Address)
  | calloc (thd : ThreadId) (inst : BitVec 32) (nmemb size ret : Address)
  | free (addr : Address)
  | createAction (thd : ThreadId) (iaddr : Address)
  | restart (proto : ProgramProto)

/-- What a step names. -/
inductive Label (T O : Type) where
  | none
  | thread (thd : T)
  | action (thd : T) (obj : Option O)
  deriving DecidableEq

namespace Naming

def step (sinfo : StaticInfo) (c : Naming) : Event → Option (Naming × Label (BitVec 32) (BitVec 32))
  | .imageLoad image dataStart dataSize bssStart bssSize =>
    (c.handleImageLoad image dataStart dataSize bssStart bssSize).map (·, .none)
  | .imageUnload dataStart bssStart => (c.handleImageUnload dataStart bssStart).map (·, .none)
  | .threadStart thd parent => (c.handleThreadStart thd parent).map fun got => (got.1, .thread got.2)
  | .malloc thd inst size ret => (c.allocDRegion thd ret size inst).map (·, .none)
  | .calloc thd inst nmemb size ret => (c.allocDRegion thd ret (nmemb * size) inst).map (·, .none)
  | .free addr => (c.freeDRegion addr).map (·, .none)
  | .createAction thd iaddr => (c.createAction thd iaddr).map fun got => (got.1, .action got.2.1 got.2.2)
  | .restart proto => (Program.load sinfo proto).map ({ program := · }, .none)

/-- The memory of a new region is not that of another one. -/
def Fresh (c : Naming) (block : Maple.Region) : Prop :=
  block.addr ≠ 0 ∧ block.addr.toNat + block.size.toNat < 2 ^ 64 ∧
    ∀ entry ∈ c.regionTable.toList, entry.1 ≠ 0 → entry.1 ≠ block.addr ∧ entry.2.block.Disjoint block

def Loadable (c : Naming) (start size : Address) : Prop := start = 0 ∨ size ≠ 0 ∧ c.Fresh ⟨start, size⟩

def creatorCount (c : Naming) (thd : ThreadId) (inst : BitVec 32) : BitVec 32 :=
  currIdx thd inst (c.creationInfo[CreationInfo.hash thd inst]?.getD [])

/-- A known thread allocates. The allocator may fail and return the null pointer. -/
def Allocates (sinfo : StaticInfo) (c : Naming) (thd : ThreadId) (inst : BitVec 32) (size ret : Address) : Prop :=
  thd ∈ c.threadTable ∧ sinfo.findInst inst = true ∧ (c.creatorCount thd inst).toNat + 1 < 2 ^ 32 ∧
    (ret = 0 ∨ c.Fresh ⟨ret, size⟩)

def Frees (c : Naming) (isStatic : Bool) (addr : Address) : Prop :=
  ∀ region ∈ c.regionTable[addr]?, region.isStatic = isStatic

/-- What the program does. Threads have identifiers of their own, the first one is the main
thread and the others have a parent, and scheduling points are about memory that is there. -/
def Allows (sinfo : StaticInfo) (c : Naming) : Event → Prop
  | .imageLoad image dataStart dataSize bssStart bssSize =>
    sinfo.findImage image = true ∧ c.Loadable dataStart dataSize ∧
      ∀ next ∈ c.loadSection image dataStart dataSize, next.Loadable bssStart bssSize
  | .imageUnload dataStart bssStart =>
    (dataStart = 0 ∨ c.Frees true dataStart) ∧ (bssStart = 0 ∨ c.Frees true bssStart)
  | .threadStart thd parent => thd ≠ invalidThdId ∧ thd ∉ c.threadTable ∧
    if c.mainThreadStarted = true then
      parent ∈ c.threadTable ∧ (c.threadCreationInfo[parent]?.getD 0).toNat + 1 < 2 ^ 32
    else parent = invalidThdId
  | .malloc thd inst size ret => c.Allocates sinfo thd inst size ret
  | .calloc thd inst nmemb size ret => c.Allocates sinfo thd inst (nmemb * size) ret
  | .free addr => c.Frees false addr
  | .createAction thd iaddr => thd ∈ c.threadTable ∧
    (iaddr = 0 ∨ ∃ entry ∈ c.regionTable.toList, entry.1 ≠ 0 ∧ entry.2.block.Covers iaddr 1)
  | .restart proto => proto.Reordered c.program.save

instance decidableFresh (c : Naming) (block : Maple.Region) : Decidable (c.Fresh block) :=
  @instDecidableAnd _ _ inferInstance (@instDecidableAnd _ _ inferInstance (List.decidableBAll _ _))

instance decidableLoadable (c : Naming) (start size : Address) : Decidable (c.Loadable start size) :=
  inferInstanceAs (Decidable (_ ∨ _))

instance decidableAllocates (sinfo : StaticInfo) (c : Naming) (thd : ThreadId) (inst : BitVec 32)
    (size ret : Address) : Decidable (c.Allocates sinfo thd inst size ret) :=
  inferInstanceAs (Decidable (_ ∧ _))

instance decidableFrees (c : Naming) (isStatic : Bool) (addr : Address) : Decidable (c.Frees isStatic addr) :=
  decidable_of_iff ((c.regionTable[addr]?).all (·.isStatic == isStatic) = true) (by simp [Frees, Option.all_eq_true])

instance decidableAllows (sinfo : StaticInfo) (c : Naming) (e : Event) : Decidable (c.Allows sinfo e) := by
  induction e using Event.casesOn <;> simp only [Allows]
  case imageLoad =>
    exact @instDecidableAnd _ _ inferInstance (@instDecidableAnd _ _ inferInstance (Option.decidableForallMem _))
  case createAction =>
    exact @instDecidableAnd _ _ inferInstance (@instDecidableOr _ _ inferInstance (List.decidableBEx _ _))
  all_goals infer_instance

end Naming

/-- The main thread, or how often the parent had started a child when this one started. -/
inductive ThreadName where
  | main
  | child (parent : ThreadName) (idx : ℕ)
  deriving DecidableEq

/-- The sections `.data` and `.bss` of an image share their names. -/
inductive BlockName where
  | static (image : BitVec 32)
  | dynamic (creator : ThreadName) (inst : BitVec 32) (idx : ℕ)
  deriving DecidableEq

/-- Where in which block. -/
structure ObjectName where
  block : BlockName
  offset : Address
  deriving DecidableEq

def Event.isStart : Event → Bool
  | .threadStart _ _ => true
  | _ => false

/-! What the names are, from the events of the current run, the last one first. -/
namespace History

def children (parent : ThreadId) (past : List Event) : ℕ := past.countP fun
  | .threadStart _ p => p = parent
  | _ => false

def allocations (thd : ThreadId) (inst : BitVec 32) (past : List Event) : ℕ := past.countP fun
  | .malloc t i _ _ => t = thd ∧ i = inst
  | .calloc t i _ _ _ => t = thd ∧ i = inst
  | _ => false

def threadName : List Event → ThreadId → Option ThreadName
  | [], _ => none
  | .threadStart started parent :: past, thd =>
    if thd = started then
      if past.any Event.isStart then (threadName past parent).map (.child · (children parent past + 1))
      else some .main
    else threadName past thd
  | _ :: past, thd => threadName past thd

def addStatic (image : BitVec 32) (start size : Address) (live : List (Maple.Region × BlockName)) :
    List (Maple.Region × BlockName) :=
  if start = 0 then live else (⟨start, size⟩, .static image) :: live

/-- A null pointer is not a block. -/
def addDynamic (past : List Event) (thd : ThreadId) (inst : BitVec 32) (size ret : Address)
    (live : List (Maple.Region × BlockName)) : List (Maple.Region × BlockName) :=
  match threadName past thd with
  | some creator =>
    if ret = 0 then live else (⟨ret, size⟩, .dynamic creator inst (allocations thd inst past + 1)) :: live
  | none => live

def remove (start : Address) (live : List (Maple.Region × BlockName)) : List (Maple.Region × BlockName) :=
  live.filter (·.1.addr ≠ start)

/-- The blocks that are there. -/
def blocks : List Event → List (Maple.Region × BlockName)
  | [] => []
  | .imageLoad image dataStart dataSize bssStart bssSize :: past =>
    addStatic image bssStart bssSize (addStatic image dataStart dataSize (blocks past))
  | .imageUnload dataStart bssStart :: past => remove bssStart (remove dataStart (blocks past))
  | .malloc thd inst size ret :: past => addDynamic past thd inst size ret (blocks past)
  | .calloc thd inst nmemb size ret :: past => addDynamic past thd inst (nmemb * size) ret (blocks past)
  | .free addr :: past => remove addr (blocks past)
  | _ :: past => blocks past

def objectName (past : List Event) (iaddr : Address) : Option ObjectName :=
  ((blocks past).find? fun entry => entry.1.Covers iaddr 1).map fun entry => ⟨entry.2, iaddr - entry.1.addr⟩

def label (past : List Event) : Event → Label ThreadName ObjectName
  | .threadStart thd parent => (threadName (.threadStart thd parent :: past) thd).elim .none .thread
  | .createAction thd iaddr => (threadName past thd).elim .none fun own =>
    .action own (if iaddr = 0 then none else objectName past iaddr)
  | _ => .none

/-- A new run forgets. -/
def extend (past : List Event) : Event → List Event
  | .restart _ => []
  | e => e :: past

def labels : List Event → List Event → List (Label ThreadName ObjectName)
  | _, [] => []
  | past, e :: tr => label past e :: labels (extend past e) tr

end History
end Maple.Systematic.Objects
