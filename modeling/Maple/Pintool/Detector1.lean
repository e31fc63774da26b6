import Maple.Race.DjitExact

/-! What `pintool::Detector1` adds to `race::Detector`: the gate in front of the
access hooks, and the Djit of `pintool/djit.cpp` behind it. -/
namespace Maple.Pintool
open Race

/-- `thread_start_c_ > 1 && thread_start_c_ - thread_join_c_ > 1` -/
def gate {G : Type} (b : DetectorBase G) : Bool :=
  1 < b.threadStartC && 1 < b.threadStartC - b.threadJoinC

/-- The gate as a function of the trace. -/
def gateOpen (p : Progress) : Bool :=
  1 < (p.started.length : Int) && 1 < (p.started.length : Int) - p.joined.length

theorem gate_of_counted {G : Type} {b : DetectorBase G} {p : Progress} (counted : b.Counted p) :
    gate b = gateOpen p := by
  simp only [gate, gateOpen, counted.1, counted.2]

/-- `pintool::Djit`. Its comparison with the last clocks only feeds a statistic. -/
def djit : Algorithm Unit DjitMeta where
  newMeta := {}
  processLock := DetectorBase.processLock
  processUnlock := DetectorBase.processUnlock
  afterPthreadJoin := DetectorBase.afterPthreadJoin
  beforeCall own _ _ := own
  gate := gate
  processRead := Djit.processRead
  processWrite := Djit.processWrite
  processFree := Djit.processFree

/-- Members of an object of a detector class before the first hook. -/
def start (M : Type) {G : Type} (unitSize : Address) (trackRacyInst : Bool) (filter : RegionFilter)
    (own : G) : Detector G M := { unitSize, trackRacyInst, filter, own }

theorem start_fresh {M G : Type} (unitSize : Address) (trackRacyInst : Bool) (filter : RegionFilter)
    (own : G) : (start M unitSize trackRacyInst filter own).Fresh :=
  ⟨rfl, rfl, rfl, rfl, rfl, rfl⟩

/-- What `GetMeta` would return for a unit. -/
def metaAt {G M : Type} (d : Detector G M) (newMeta : M) (iaddr : Address) : M :=
  d.metaTable[iaddr]?.getD newMeta

/-- Djit marks exactly the units with an unordered conflicting pair behind the gate. -/
theorem djit_racy_iff {unitSize : Address} (trackRacyInst : Bool) {filter : RegionFilter}
    {tr : List Hook} (conforms : Conforms unitSize tr) (monitored : Monitored filter tr) :
    ∃ last outs, Detector.run djit (start _ unitSize trackRacyInst filter ()) tr = some (last, outs) ∧
      ∀ x, (metaAt last {} x).racy = true ↔
        ∃ j < tr.length, RacyAt syncOrder gateOpen unitSize tr x j := by
  have tracks : djit.Tracks syncOrder gateOpen (fun _ _ => True) (fun _ => True) := base_tracks gate_of_counted rfl rfl rfl
  obtain ⟨last, outs, ran, _, ⟨epoch, inv⟩, _⟩ :=
    (djit_analyses syncOrder_hooks rfl rfl rfl).run (start _ unitSize trackRacyInst filter ())
      tracks conforms trivial monitored (start_fresh ..) trivial
      (Runs.along_of_forall (fun _ _ => trivial) _ _)
  exact ⟨last, outs, ran, fun x => (inv.units x).racy⟩

end Maple.Pintool
