import Maple.Core.BasicTypes

/-! `core/filter.cc`: the regions whose accesses are monitored. -/
namespace Maple

structure RegionFilter where
  addrRegionMap : OrdMap Address Address := ∅

namespace RegionFilter

def addRegion (f : RegionFilter) (addr size : Address) : RegionFilter :=
  ⟨f.addrRegionMap.insert addr size⟩

/-- Returns the size of the removed region, zero when there is none. -/
def removeRegion (f : RegionFilter) (addr : Address) : Address × RegionFilter :=
  if addr = 0 then (0, f)
  else match f.addrRegionMap[addr]? with
    | none => (0, f)
    | some size => (size, ⟨f.addrRegionMap.erase addr⟩)

/-- `true` means that the address is filtered out. The entry before
`upper_bound(addr)` is the last one that starts at or below `addr`. -/
def filter (f : RegionFilter) (addr : Address) : Bool :=
  match f.addrRegionMap.getEntryLE? addr with
  | none => true
  | some (regionStart, regionSize) => !(regionStart ≤ addr ∧ addr < regionStart + regionSize)

end RegionFilter
end Maple
