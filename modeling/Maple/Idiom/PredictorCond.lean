import Maple.Core.VectorClock
import Maple.Lib.Runs
import Maple.Lib.Tokens

/-! The condition variables of `idiom/predictor_new.cc`. A signal is recorded for all
waiters, and the waiter that returns first claims the first signal recorded for it,
also if it was not this signal that released it. -/
namespace Maple.Idiom

structure WaitInfo where
  timed : Bool := false
  broadcasted : Bool := false
  broadcastVc : VectorClock := {}
  signalMap : OrdMap (BitVec 32) VectorClock := ∅

/-- `signal_map.begin()`. -/
def firstSignal (signalMap : OrdMap (BitVec 32) VectorClock) : Option (BitVec 32) := signalMap.keys.head?

theorem firstSignal_eq (signalMap : OrdMap (BitVec 32) VectorClock) : firstSignal signalMap = signalMap.minKey? :=
  Std.ExtTreeMap.minKey?_eq_head?_keys.symm

structure CondMeta where
  currSignalId : BitVec 32 := 0
  waitMap : OrdMap ThreadId WaitInfo := ∅

/-- One condition variable and the clocks of all threads. -/
structure CondState where
  currVcMap : OrdMap ThreadId VectorClock
  cond : CondMeta := {}

namespace CondState

def processSignal (s : CondState) (currThdId : ThreadId) : Option CondState := do
  let currVc ← s.currVcMap[currThdId]?
  let nextSignalId := s.cond.currSignalId + 1
  return {
    currVcMap := s.currVcMap.insert currThdId (currVc.increment currThdId)
    cond := {
      currSignalId := nextSignalId
      waitMap := s.cond.waitMap.map fun _ info =>
        if info.broadcasted then info
        else { info with signalMap := info.signalMap.insert nextSignalId currVc } } }

def processBroadcast (s : CondState) (currThdId : ThreadId) : Option CondState := do
  let currVc ← s.currVcMap[currThdId]?
  return {
    currVcMap := s.currVcMap.insert currThdId (currVc.increment currThdId)
    cond := { s.cond with
      waitMap := s.cond.waitMap.map fun _ info =>
        if info.broadcasted then info
        else { info with broadcasted := true, broadcastVc := currVc } } }

def processPreWait (s : CondState) (currThdId : ThreadId) (timedwait : Bool) : CondState :=
  let self := s.cond.waitMap[currThdId]?.getD {}
  { s with cond := { s.cond with
      waitMap := s.cond.waitMap.insert currThdId { self with timed := timedwait, broadcasted := false } } }

def processPostWait (s : CondState) (currThdId : ThreadId) : Option CondState := do
  let currVc ← s.currVcMap[currThdId]?
  let self := s.cond.waitMap[currThdId]?.getD {}
  match firstSignal self.signalMap with
  | none => do
    let currVc ←
      if self.broadcasted then pure (currVc.join self.broadcastVc)
      else do
        debugAssert (self.timed = true)
        pure currVc
    return {
      currVcMap := s.currVcMap.insert currThdId currVc
      cond := { s.cond with waitMap := s.cond.waitMap.erase currThdId } }
  | some signalId => do
    let signalVc ← self.signalMap[signalId]?
    let waitMap := s.cond.waitMap.map fun thdId info =>
      if thdId = currThdId then info
      else { info with signalMap := info.signalMap.erase signalId }
    return {
      currVcMap := s.currVcMap.insert currThdId (currVc.join signalVc)
      cond := { s.cond with waitMap := waitMap.erase currThdId } }

end CondState

/-- What happened to a waiter, whether or not the model can tell. -/
structure Wait where
  timed : Bool
  signaled : Bool := false
  broadcast : Bool := false
  deriving DecidableEq

/-- The calls on a condition variable and the waits that are going on. -/
structure CondRun where
  state : CondState
  waits : ThreadId → Option Wait := fun _ => none

/-- A signal releases at most one waiter; `other` stands for all that happens to the
clocks of threads in between. -/
inductive CondCall where
  | signal (thdId : ThreadId) (released : Option ThreadId)
  | broadcast (thdId : ThreadId)
  | preWait (thdId : ThreadId) (timedwait : Bool)
  | postWait (thdId : ThreadId)
  | other (currVcMap : OrdMap ThreadId VectorClock)

namespace CondRun

def step (r : CondRun) : CondCall → Option CondRun
  | .signal t released => do
    let state ← r.state.processSignal t
    return {
      state := state
      waits := fun u => (r.waits u).map fun wait =>
        if released = some u then { wait with signaled := true } else wait }
  | .broadcast t => do
    let state ← r.state.processBroadcast t
    return { state := state, waits := fun u => (r.waits u).map fun wait => { wait with broadcast := true } }
  | .preWait t timedwait => some {
      state := r.state.processPreWait t timedwait
      waits := fun u => if u = t then some { timed := timedwait } else r.waits u }
  | .postWait t => do
    let state ← r.state.processPostWait t
    return { state := state, waits := fun u => if u = t then none else r.waits u }
  | .other currVcMap => some { r with state := { r.state with currVcMap := currVcMap } }

/-- What pthreads allows: a wait returns when a signal or a broadcast released it, and
a timed one at any time. -/
def Allows (r : CondRun) : CondCall → Prop
  | .signal t released => t ∈ r.state.currVcMap ∧ ∀ u ∈ released, (r.waits u).isSome = true
  | .broadcast t => t ∈ r.state.currVcMap
  | .preWait t _ => r.waits t = none
  | .postWait t => t ∈ r.state.currVcMap ∧
      (r.waits t).any (fun wait => wait.timed || wait.signaled || wait.broadcast) = true
  | .other _ => True

def Initial (r : CondRun) : Prop := ∃ currVcMap, r = { state := { currVcMap := currVcMap } }

/-- The signals that are recorded for a waiter. -/
def signals (r : CondRun) (t : ThreadId) : OrdMap (BitVec 32) VectorClock :=
  (r.state.cond.waitMap[t]?.map (·.signalMap)).getD ∅

def pending (r : CondRun) (t : ThreadId) : Finset ℕ := ((r.signals t).keys.map BitVec.toNat).toFinset

def waiters (r : CondRun) : Finset ThreadId := r.state.cond.waitMap.keys.toFinset

/-- Waiters that no broadcast has reached. -/
def unreached (r : CondRun) : Finset ThreadId :=
  r.waiters.filter fun t => (r.waits t).any (fun wait => !wait.broadcast) = true

/-- Those of them that a signal has released. -/
def released (r : CondRun) : Finset ThreadId :=
  r.waiters.filter fun t => (r.waits t).any (fun wait => wait.signaled && !wait.broadcast) = true

/-- A wait that is about to end by its timeout. -/
def TimedOut (r : CondRun) (t : ThreadId) : Prop :=
  (r.waits t).any (fun wait => !wait.signaled && !wait.broadcast) = true

/-- The signal that the waiter would claim is not needed: each released waiter that has
it pending, has more signals than there are released waiters without more than these. -/
def Spares (r : CondRun) (t : ThreadId) : Prop :=
  match firstSignal (r.signals t) with
  | none => True
  | some id => ∀ u ∈ r.released, id ∈ r.signals u →
    (Tokens.poor r.released r.pending (r.pending u).card).card < (r.pending u).card

/-- A wait that times out claims no signal that a released waiter needs, and a signal
gets an identifier above the pending ones: it wraps around only if there are none. -/
def Meets (r : CondRun) : CondCall → Prop
  | .signal _ _ => ∀ entry ∈ r.state.cond.waitMap.toList,
      entry.2.signalMap.keys.all (fun id => id < r.state.cond.currSignalId + 1) = true
  | .postWait t => r.TimedOut t → r.Spares t
  | _ => True

instance (r : CondRun) (t : ThreadId) : Decidable (r.TimedOut t) := inferInstanceAs (Decidable (_ = _))

instance (r : CondRun) (t : ThreadId) : Decidable (r.Spares t) := by
  unfold Spares
  match firstSignal (r.signals t) with
  | none => exact isTrue trivial
  | some id => exact Finset.decidableDforallFinset

instance (r : CondRun) (c : CondCall) : Decidable (r.Allows c) := by
  induction c using CondCall.casesOn <;> simp only [Allows] <;> infer_instance

instance (r : CondRun) (c : CondCall) : Decidable (r.Meets c) := by
  induction c using CondCall.casesOn <;> simp only [Meets] <;> infer_instance

end CondRun
end Maple.Idiom
