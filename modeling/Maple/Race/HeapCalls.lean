import Maple.Core.Monitored
import Maple.Race.Builds

/-! Calls of the C allocation functions as the wrappers of
`core/execution_control.cpp` deliver them. -/
namespace Maple.Race

/-- A completed call with its result. With a null result `released` says whether
`realloc` gave the original block back. -/
inductive HeapCall where
  | malloc (size ret : Address)
  | calloc (nmemb size ret : Address)
  | realloc (oriAddr size ret : Address) (released : Bool)
  | valloc (size ret : Address)
  | free (addr : Address)
  deriving DecidableEq

/-- What the wrappers and the image callbacks report. -/
inductive HeapEvent where
  | imageLoad (lowAddr highAddr dataStart dataSize bssStart bssSize : Address)
  | imageUnload (lowAddr dataStart bssStart : Address)
  | call (c : HeapCall)
  deriving DecidableEq

namespace HeapCall

/-- The hooks before `CallOriginal`; those that the detector does not override are left out. -/
def before : HeapCall → List Hook
  | .realloc oriAddr _ _ _ => [.beforeRealloc oriAddr]
  | .free addr => [.beforeFree addr]
  | .malloc .. | .calloc .. | .valloc .. => []

/-- The hooks behind `CallOriginal`. -/
def after : HeapCall → List Hook
  | .malloc size ret => [.afterMalloc size ret]
  | .calloc nmemb size ret => [.afterCalloc nmemb size ret]
  | .realloc _ size ret _ => [.afterRealloc size ret]
  | .valloc size ret => [.afterValloc size ret]
  | .free _ => []

end HeapCall

def HeapEvent.hooks : HeapEvent → List Hook
  | .imageLoad lowAddr highAddr dataStart dataSize bssStart bssSize =>
    [.imageLoad lowAddr highAddr dataStart dataSize bssStart bssSize]
  | .imageUnload lowAddr dataStart bssStart => [.imageUnload lowAddr dataStart bssStart]
  | .call c => c.before ++ c.after

namespace Detector
variable {G M : Type}

def onHeapEvent (debug : Bool) (alg : Algorithm G M) (d : Detector G M) (e : HeapEvent) :
    Option (Detector G M) :=
  e.hooks.foldlM (fun d hook => (d.stepIn debug alg hook).map Prod.fst) d

variable {debug : Bool} {alg : Algorithm G M} {d : Detector G M}

theorem onHeapEvent_single {e : HeapEvent} {hook : Hook} (single : e.hooks = [hook]) :
    d.onHeapEvent debug alg e = (d.stepIn debug alg hook).map Prod.fst := by
  rw [onHeapEvent, single, List.foldlM_cons]
  exact bind_pure _

theorem map_fst_silent (b : Option (DetectorBase G)) : (d.silent b).map Prod.fst = b.map d.onBase := by
  rw [silent, Option.map_map]
  rfl

theorem onHeapEvent_realloc {oriAddr size ret : Address} {released : Bool} :
    d.onHeapEvent debug alg (.call (.realloc oriAddr size ret released)) =
      ((d.freeAddrRegion alg oriAddr).1.allocAddrRegionIn debug ret size).map
        (d.freeAddrRegion alg oriAddr).1.onBase := by
  have hooks : (HeapEvent.call (.realloc oriAddr size ret released)).hooks =
      [.beforeRealloc oriAddr, .afterRealloc size ret] := rfl
  rw [onHeapEvent, hooks, List.foldlM_cons, stepIn, Option.map_some, Option.bind_eq_bind,
    Option.bind_some, List.foldlM_cons]
  refine Eq.trans (bind_pure _) ?_
  rw [stepIn, map_fst_silent]
  · rfl
  all_goals simp

end Detector
end Maple.Race
