import Maple.Core.BasicTypes
import Maple.Lib.Runs

/-! The simulated condition variables of `systematic/controller.cpp`. A signal is put
into the set of every waiter, and the waiter that is scheduled first takes it from the
others, some of which fall asleep again. -/
namespace Maple.Systematic

/-- `enable_table_` -/
abbrev EnableTable := ThreadId → Bool

abbrev SignalSet := Std.ExtTreeSet (BitVec 32)

structure WaitInfo where
  timed : Bool := false
  broadcasted : Bool := false
  signalSet : SignalSet := ∅

structure CondInfo where
  currSignalId : BitVec 32 := 0
  waitMap : OrdMap ThreadId WaitInfo := ∅

/-- A waiter that is disabled. -/
def WaitInfo.asleep (w : WaitInfo) : Bool := !w.broadcasted && !w.timed && w.signalSet.isEmpty

/-- `*signal_set.begin()` -/
def firstSignal (set : SignalSet) : Option (BitVec 32) := set.toList.head?

namespace CondInfo

/-- What the loops of `CondSignal` and `CondBroadcast` do to `enable_table_`. -/
def wakeUp (c : CondInfo) (enable : EnableTable) : Option EnableTable := do
  debugAssert (∀ e ∈ c.waitMap.toList, e.2.asleep = true → enable e.1 = false)
  return fun t => enable t || c.waitMap[t]?.any WaitInfo.asleep

def condSignal (c : CondInfo) (enable : EnableTable) : Option (CondInfo × EnableTable) := do
  let nextSignalId := c.currSignalId + 1
  let enable ← c.wakeUp enable
  let waitMap := c.waitMap.map fun _ w =>
    if w.broadcasted then w else { w with signalSet := w.signalSet.insert nextSignalId }
  return ({ currSignalId := nextSignalId, waitMap }, enable)

def condBroadcast (c : CondInfo) (enable : EnableTable) : Option (CondInfo × EnableTable) := do
  let enable ← c.wakeUp enable
  let waitMap := c.waitMap.map fun _ w =>
    if w.broadcasted then w else { w with broadcasted := true, signalSet := ∅ }
  return ({ c with waitMap }, enable)

/-- `CondWait` and `CondTimedwait` up to their schedule points. -/
def startWait (c : CondInfo) (enable : EnableTable) (self : ThreadId) (timed : Bool) : CondInfo × EnableTable :=
  let old := c.waitMap[self]?.getD {}
  ({ c with waitMap := c.waitMap.insert self { old with timed, broadcasted := false } },
    if timed then enable else Function.update enable self false)

/-- Whether a waiter loses the signal that `self` takes. -/
def loses (self : ThreadId) (id : BitVec 32) (t : ThreadId) (w : WaitInfo) : Bool :=
  t ≠ self && !w.broadcasted && w.signalSet.contains id

/-- Whether it falls asleep by that. -/
def dozes (self : ThreadId) (id : BitVec 32) (t : ThreadId) (w : WaitInfo) : Bool :=
  loses self id t w && !w.timed && (w.signalSet.erase id).isEmpty

/-- The loop over the other waiters. -/
def consume (c : CondInfo) (enable : EnableTable) (self : ThreadId) (id : BitVec 32) :
    Option (CondInfo × EnableTable) := do
  debugAssert (∀ e ∈ c.waitMap.toList, dozes self id e.1 e.2 = true → enable e.1 = true)
  let waitMap := c.waitMap.map fun t w =>
    if loses self id t w then { w with signalSet := w.signalSet.erase id } else w
  return ({ c with waitMap }, fun t => enable t && !c.waitMap[t]?.any (dozes self id t))

def eraseWait (c : CondInfo) (self : ThreadId) : CondInfo := { c with waitMap := c.waitMap.erase self }

/-- `CondWait` from its schedule point. -/
def condWait (c : CondInfo) (enable : EnableTable) (self : ThreadId) : Option (CondInfo × EnableTable) := do
  let w := c.waitMap[self]?.getD {}
  if w.broadcasted then return (c.eraseWait self, enable)
  let signalId ← firstSignal w.signalSet
  let (c, enable) ← c.consume enable self signalId
  return (c.eraseWait self, enable)

/-- `CondTimedwait` from its schedule point. The flag is set for `ETIMEDOUT`. -/
def condTimedwait (c : CondInfo) (enable : EnableTable) (self : ThreadId) :
    Option (Bool × CondInfo × EnableTable) := do
  let w := c.waitMap[self]?.getD {}
  if w.broadcasted then return (false, c.eraseWait self, enable)
  match firstSignal w.signalSet with
  | none => return (true, c.eraseWait self, enable)
  | some signalId =>
    let (c, enable) ← c.consume enable self signalId
    return (false, c.eraseWait self, enable)

end CondInfo

/-- What happened during a wait: how many signals had been issued when it began, and
whether there was a broadcast. -/
structure Wait where
  timed : Bool
  began : ℕ
  reached : Bool := false
  deriving DecidableEq

/-- A signal that a waiter took. -/
structure Consumption where
  id : BitVec 32
  thd : ThreadId
  wait : Wait

/-- One condition variable, with the history of its signals. -/
structure CondRun where
  info : CondInfo := {}
  enable : EnableTable := fun _ => true
  issued : ℕ := 0
  waits : ThreadId → Option Wait := fun _ => none
  log : List Consumption := []

inductive CondEvent where
  | signal
  | broadcast
  | startWait (thd : ThreadId) (timed : Bool)
  /-- The wait goes on after its schedule point. -/
  | endWait (thd : ThreadId)
  /-- What other calls do to a thread that does not wait here. -/
  | other (thd : ThreadId) (enabled : Bool)

namespace CondRun

/-- The signal that a waiter would take. -/
def next (r : CondRun) (t : ThreadId) : Option (BitVec 32) := do
  let w ← r.info.waitMap[t]?
  if w.broadcasted then none else firstSignal w.signalSet

def step (r : CondRun) : CondEvent → Option CondRun
  | .signal => do
    let (info, enable) ← r.info.condSignal r.enable
    return { r with info, enable, issued := r.issued + 1 }
  | .broadcast => do
    let (info, enable) ← r.info.condBroadcast r.enable
    return { r with info, enable, waits := fun t => (r.waits t).map fun wait => { wait with reached := true } }
  | .startWait t timed =>
    let (info, enable) := r.info.startWait r.enable t timed
    some { r with info, enable, waits := Function.update r.waits t (some { timed, began := r.issued }) }
  | .endWait t => do
    let wait ← r.waits t
    let (info, enable) ←
      if wait.timed then (r.info.condTimedwait r.enable t).map Prod.snd else r.info.condWait r.enable t
    return { r with
      info, enable
      waits := Function.update r.waits t none
      log := r.log ++ ((r.next t).map fun id => ⟨id, t, wait⟩).toList }
  | .other t enabled => some { r with enable := Function.update r.enable t enabled }

/-- Permission is granted to enabled threads only. -/
def Allows (r : CondRun) : CondEvent → Prop
  | .startWait t _ => r.waits t = none ∧ r.enable t = true
  | .endWait t => (r.waits t).isSome ∧ r.enable t = true
  | .other t _ => r.waits t = none
  | _ => True

instance (r : CondRun) (e : CondEvent) : Decidable (r.Allows e) := by
  unfold Allows
  split <;> infer_instance

/-- The identifier of the next signal does not wrap around. -/
def Meets (r : CondRun) : CondEvent → Prop
  | .signal => r.issued + 1 < 2 ^ 32
  | _ => True

instance (r : CondRun) (e : CondEvent) : Decidable (r.Meets e) := by
  unfold Meets
  split <;> infer_instance

abbrev Reachable (allows : CondRun → CondEvent → Prop) : CondRun → Prop :=
  Runs.Reach (fun r => ∃ enable, r = { enable }) allows step

end CondRun

end Maple.Systematic
