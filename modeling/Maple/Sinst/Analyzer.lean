import Maple.Core.Regions
import Maple.Race.Detector

/-! `sinst/analyzer.cc` and `sinst/sinst.cc`: the shared instruction analyzer. -/
namespace Maple.Sinst
open Race (Hook)

/-- `std::set<Inst *>`. -/
abbrev InstSet := Std.ExtTreeSet InstId

@[simp] theorem mem_insert_inst (insts : InstSet) (inst other : InstId) :
    other ∈ insts.insert inst ↔ other = inst ∨ other ∈ insts := by
  rw [Std.ExtTreeSet.mem_insert, Std.compare_eq_iff_eq, eq_comm]

/-- `sharedInstSet` indexes the instructions of `tableProto`. -/
structure SharedInstDB where
  sharedInstSet : InstSet := ∅
  tableProto : List InstId := []
  indexed : ∀ inst, inst ∈ sharedInstSet ↔ inst ∈ tableProto := by simp
  distinct : tableProto.Nodup := by simp

namespace SharedInstDB

def shared (db : SharedInstDB) (inst : InstId) : Bool := db.sharedInstSet.contains inst

def setShared (db : SharedInstDB) (inst : InstId) : SharedInstDB :=
  if known : inst ∈ db.sharedInstSet then db
  else
    { sharedInstSet := db.sharedInstSet.insert inst
      tableProto := db.tableProto ++ [inst]
      indexed := by
        intro other
        rw [mem_insert_inst, db.indexed, List.mem_append, List.mem_singleton, or_comm]
      distinct := by
        have fresh := mt (db.indexed inst).mpr known
        refine List.nodup_append.mpr ⟨db.distinct, by simp, fun a member b last => ?_⟩
        rintro rfl
        exact fresh (List.mem_singleton.mp last ▸ member) }

theorem shared_setShared (db : SharedInstDB) (inst other : InstId) :
    (db.setShared inst).shared other = true ↔ db.shared other = true ∨ other = inst := by
  unfold setShared
  split
  · next known =>
    simp only [shared, Std.ExtTreeSet.contains_iff_mem, iff_self_or]
    rintro rfl
    exact known
  · simp only [shared, Std.ExtTreeSet.contains_iff_mem, mem_insert_inst, or_comm]

theorem shared_foldl (insts : List InstId) (db : SharedInstDB) (other : InstId) :
    (insts.foldl setShared db).shared other = true ↔ db.shared other = true ∨ other ∈ insts := by
  induction insts generalizing db with
  | nil => simp
  | cons inst rest ih =>
    rw [List.foldl_cons, ih, shared_setShared, List.mem_cons, or_assoc]

end SharedInstDB

structure Meta where
  shared : Bool := false
  hasWrite : Bool := false
  multiRead : Bool := false
  lastThdId : ThreadId := invalidThdId
  instSet : InstSet := ∅

namespace Meta

def insertInst (m : Meta) (inst : InstId) : Meta := { m with instSet := m.instSet.insert inst }

/-- The unit becomes shared: its pending instructions are marked and forgotten. -/
def markShared (m : Meta) : Meta × List InstId :=
  ({ m with shared := true, instSet := ∅ }, m.instSet.toList)

/-- The body of the loop in `BeforeMemRead`: the new entry of the unit, and the
instructions given to `SetShared`. -/
def read (curr : ThreadId) (inst : InstId) : Option Meta → Meta × List InstId
  | none => ({ lastThdId := curr, instSet := {inst} }, [])
  | some old =>
    if old.shared then (old, [inst])
    else
      let m := old.insertInst inst
      if curr ≠ m.lastThdId then
        if m.hasWrite then m.markShared
        else ({ m with multiRead := true, lastThdId := curr }, [])
      else (m, [])

/-- The body of the loop in `BeforeMemWrite`. -/
def write (curr : ThreadId) (inst : InstId) : Option Meta → Meta × List InstId
  | none => ({ hasWrite := true, lastThdId := curr, instSet := {inst} }, [])
  | some old =>
    if old.shared then (old, [inst])
    else
      let m := { old with hasWrite := true }.insertInst inst
      if curr ≠ m.lastThdId ∨ m.multiRead then m.markShared
      else (m, [])

end Meta

structure SharedInstAnalyzer where
  sinstDb : SharedInstDB := {}
  unitSize : Address
  filter : RegionFilter := {}
  metaTable : OrdMap Address Meta := ∅

namespace SharedInstAnalyzer

def accessUnit (process : Option Meta → Meta × List InstId) (a : SharedInstAnalyzer)
    (iaddr : Address) : SharedInstAnalyzer :=
  let (changed, marked) := process a.metaTable[iaddr]?
  { a with
    metaTable := a.metaTable.insert iaddr changed
    sinstDb := marked.foldl SharedInstDB.setShared a.sinstDb }

def beforeMem (process : Option Meta → Meta × List InstId) (a : SharedInstAnalyzer)
    (addr size : Address) : SharedInstAnalyzer :=
  if a.filter.filter addr then a
  else (unitsOf a.unitSize addr size).foldl (accessUnit process) a

def beforeMemRead (a : SharedInstAnalyzer) (curr : ThreadId) (inst : InstId) (addr size : Address) :
    SharedInstAnalyzer :=
  a.beforeMem (Meta.read curr inst) addr size

def beforeMemWrite (a : SharedInstAnalyzer) (curr : ThreadId) (inst : InstId) (addr size : Address) :
    SharedInstAnalyzer :=
  a.beforeMem (Meta.write curr inst) addr size

def allocAddrRegion (a : SharedInstAnalyzer) (addr size : Address) : Option SharedInstAnalyzer := do
  debugAssert (addr ≠ 0 ∧ size ≠ 0)
  return { a with filter := a.filter.addRegion addr size }

def freeAddrRegion (a : SharedInstAnalyzer) (addr : Address) : SharedInstAnalyzer :=
  if addr = 0 then a
  else
    let (size, filter) := a.filter.removeRegion addr
    { a with
      filter := filter
      metaTable := (unitsOf a.unitSize addr size).foldl (·.erase ·) a.metaTable }

def allocSection (a : SharedInstAnalyzer) (start size : Address) : Option SharedInstAnalyzer :=
  if start ≠ 0 then do
    debugAssert (size ≠ 0)
    a.allocAddrRegion start size
  else some a

def imageLoad (a : SharedInstAnalyzer)
    (lowAddr highAddr dataStart dataSize bssStart bssSize : Address) : Option SharedInstAnalyzer := do
  debugAssert (lowAddr ≠ 0 ∧ highAddr ≠ 0 ∧ lowAddr < highAddr)
  let withData ← a.allocSection dataStart dataSize
  withData.allocSection bssStart bssSize

def imageUnload (a : SharedInstAnalyzer) (lowAddr dataStart bssStart : Address) :
    Option SharedInstAnalyzer := do
  debugAssert (lowAddr ≠ 0)
  let withoutData := if dataStart ≠ 0 then a.freeAddrRegion dataStart else a
  return if bssStart ≠ 0 then withoutData.freeAddrRegion bssStart else withoutData

/-- Dispatch of one analyzer hook; the hooks that the class does not override do nothing. -/
def step (a : SharedInstAnalyzer) : Hook → Option SharedInstAnalyzer
  | .imageLoad lowAddr highAddr dataStart dataSize bssStart bssSize =>
    a.imageLoad lowAddr highAddr dataStart dataSize bssStart bssSize
  | .imageUnload lowAddr dataStart bssStart => a.imageUnload lowAddr dataStart bssStart
  | .beforeMemRead curr inst addr size => some (a.beforeMemRead curr inst addr size)
  | .beforeMemWrite curr inst addr size => some (a.beforeMemWrite curr inst addr size)
  | .afterMalloc size addr | .afterValloc size addr | .afterRealloc size addr =>
    a.allocAddrRegion addr size
  | .afterCalloc nmemb size addr => a.allocAddrRegion addr (size * nmemb)
  | .beforeRealloc addr | .beforeFree addr => some (a.freeAddrRegion addr)
  | _ => some a

def run (a : SharedInstAnalyzer) (tr : List Hook) : Option SharedInstAnalyzer := tr.foldlM step a

end SharedInstAnalyzer
end Maple.Sinst
