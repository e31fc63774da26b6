import Maple.Systematic.CondInfo
import Maple.Systematic.Program

/-! The execution controller of `systematic/controller.cpp`: the calls that it simulates,
each split at its schedule point, and the states that the scheduler chooses from. The tables
of a region are taken as one, and a thread waits in `Schedule` while its action is registered. -/
namespace Maple.Systematic

/-- A call with a schedule point. -/
inductive Call where
  | threadCreate
  | threadJoin (child : ThreadId)
  | mutexTrylock (mutexAddr : Address)
  | mutexLock (mutexAddr : Address)
  | mutexUnlock (mutexAddr : Address)
  | condSignal (condAddr : Address)
  | condBroadcast (condAddr : Address)
  | condWait (condAddr : Address)
  | condTimedwait (condAddr : Address)
  | barrierInit (barrierAddr : Address) (count : BitVec 32)
  | barrierWait (barrierAddr : Address)
  | memRead (iaddr : Address)
  | memWrite (iaddr : Address)
  | sleep
  | usleep
  | schedYield
  deriving DecidableEq

namespace Call

def op : Call → Operation
  | threadCreate => .threadCreate
  | threadJoin _ => .threadJoin
  | mutexTrylock _ => .mutexTrylock
  | mutexLock _ => .mutexLock
  | mutexUnlock _ => .mutexUnlock
  | condSignal _ => .condSignal
  | condBroadcast _ => .condBroadcast
  | condWait _ => .condWait
  | condTimedwait _ => .condTimedwait
  | barrierInit .. => .barrierInit
  | barrierWait _ => .barrierWait
  | memRead _ => .memRead
  | memWrite _ => .memWrite
  | sleep => .sleep
  | usleep => .usleep
  | schedYield => .schedYield

/-- The address that is passed to `Schedule`. -/
def iaddr : Call → Address
  | mutexTrylock a | mutexLock a | mutexUnlock a => a
  | condSignal a | condBroadcast a | condWait a | condTimedwait a => a
  | barrierInit a _ | barrierWait a => a
  | memRead a | memWrite a => a
  | threadCreate | threadJoin _ | sleep | usleep | schedYield => 0

def isRace : Call → Bool
  | memRead _ | memWrite _ => true
  | _ => false

end Call

inductive Errno where
  | ok | ebusy | etimedout
  deriving DecidableEq

/-- What is registered in `action_table_`. -/
structure Pending where
  call : Call
  inst : InstId
  deriving DecidableEq

/-- The `Thread` and the `Object` of the program that an action is created with. -/
structure Interned where
  thread : ThreadId → Thread
  object : Address → Object

/-- `CreateAction` -/
def Pending.action (names : Interned) (self : ThreadId) (p : Pending) : Action where
  thd := names.thread self
  obj := if p.call.iaddr = 0 then none else some (names.object p.call.iaddr)
  op := p.call.op
  inst := some p.inst

/-- The loops over threads that wait, or that have to wait from now on. -/
def setAll (enabled : Bool) (threads : List ThreadId) (enable : EnableTable) : Option EnableTable :=
  threads.foldlM (fun enable t => do
    debugAssert (enable t = !enabled)
    return Function.update enable t enabled) enable

def wakeAll : List ThreadId → EnableTable → Option EnableTable := setAll true
def suspendAll : List ThreadId → EnableTable → Option EnableTable := setAll false

structure MutexInfo where
  holder : Option ThreadId := none
  waitQueue : List ThreadId := []
  readyMap : OrdMap ThreadId Bool := ∅

namespace MutexInfo

/-- `MutexLock` up to its schedule point. -/
def startLock (m : MutexInfo) (enable : EnableTable) (self : ThreadId) : Option (MutexInfo × EnableTable) := do
  debugAssert (m.holder ≠ some self)
  let readyMap := m.readyMap.insert self false
  if m.holder.isSome then
    return ({ m with waitQueue := m.waitQueue ++ [self], readyMap }, Function.update enable self false)
  return ({ m with readyMap }, enable)

/-- The mutex is taken, and those who wanted to take it have to wait. -/
def grab (m : MutexInfo) (enable : EnableTable) (self : ThreadId) : Option (MutexInfo × EnableTable) := do
  let enable ← suspendAll m.readyMap.keys enable
  return ({ m with holder := some self, waitQueue := m.waitQueue ++ m.readyMap.keys }, enable)

/-- `MutexLock` from its schedule point. -/
def mutexLock (m : MutexInfo) (enable : EnableTable) (self : ThreadId) : Option (MutexInfo × EnableTable) := do
  debugAssert (m.holder = none)
  { m with readyMap := m.readyMap.erase self }.grab enable self

/-- `MutexTryLock` from its schedule point. -/
def mutexTryLock (m : MutexInfo) (enable : EnableTable) (self : ThreadId) :
    Option (Errno × MutexInfo × EnableTable) :=
  if m.holder.isSome then some (.ebusy, m, enable) else (m.grab enable self).map (.ok, ·)

/-- `MutexUnlock` from its schedule point. -/
def mutexUnlock (m : MutexInfo) (enable : EnableTable) (self : ThreadId) : Option (MutexInfo × EnableTable) := do
  debugAssert (m.holder = some self)
  let enable ← wakeAll m.waitQueue enable
  return ({ m with holder := none, waitQueue := [] }, enable)

end MutexInfo

/-- The constructor leaves the count undefined. -/
structure BarrierInfo where
  count : Option (BitVec 32) := none
  waitQueue : List ThreadId := []

/-- `BarrierWait` up to its schedule point; nothing follows after it. -/
def BarrierInfo.barrierWait (b : BarrierInfo) (enable : EnableTable) (self : ThreadId) :
    Option (BarrierInfo × EnableTable) := do
  if b.waitQueue.length + 1 < (← b.count).toNat then
    return ({ b with waitQueue := b.waitQueue ++ [self] }, Function.update enable self false)
  let enable ← wakeAll b.waitQueue enable
  return ({ b with waitQueue := [] }, enable)

structure JoinInfo where
  exit : Bool := false
  waitQueue : List ThreadId := []

namespace JoinInfo

/-- The handler of `PthreadJoin` up to its schedule point. -/
def startJoin (j : JoinInfo) (enable : EnableTable) (self : ThreadId) : JoinInfo × EnableTable :=
  if j.exit then (j, enable) else ({ j with waitQueue := j.waitQueue ++ [self] }, Function.update enable self false)

/-- The joiners are notified. -/
def notify (j : JoinInfo) (enable : EnableTable) : Option (JoinInfo × EnableTable) := do
  let enable ← wakeAll j.waitQueue enable
  return ({ exit := true, waitQueue := [] }, enable)

end JoinInfo

structure Controller where
  enableTable : EnableTable := fun _ => false
  actionTable : OrdMap ThreadId Pending := ∅
  mutexInfo : Address → MutexInfo := fun _ => {}
  condInfo : Address → CondInfo := fun _ => {}
  barrierInfo : Address → BarrierInfo := fun _ => {}
  joinInfo : ThreadId → JoinInfo := fun _ => {}
  raceActiveTable : OrdMap ThreadId Bool := ∅

namespace Controller

def setMutex (c : Controller) (a : Address) (info : MutexInfo × EnableTable) : Controller :=
  { c with mutexInfo := Function.update c.mutexInfo a info.1, enableTable := info.2 }

def setCond (c : Controller) (a : Address) (info : CondInfo × EnableTable) : Controller :=
  { c with condInfo := Function.update c.condInfo a info.1, enableTable := info.2 }

def setBarrier (c : Controller) (a : Address) (info : BarrierInfo × EnableTable) : Controller :=
  { c with barrierInfo := Function.update c.barrierInfo a info.1, enableTable := info.2 }

def setJoin (c : Controller) (t : ThreadId) (info : JoinInfo × EnableTable) : Controller :=
  { c with joinInfo := Function.update c.joinInfo t info.1, enableTable := info.2 }

def handleThreadStart (c : Controller) (self : ThreadId) : Controller :=
  { c with
    actionTable := c.actionTable.erase self
    enableTable := Function.update c.enableTable self true
    raceActiveTable := c.raceActiveTable.insert self false }

def handleThreadExit (c : Controller) (self : ThreadId) : Option Controller := do
  let c := c.setJoin self (← (c.joinInfo self).notify c.enableTable)
  return { c with
    enableTable := Function.update c.enableTable self false
    raceActiveTable := c.raceActiveTable.insert self false }

/-- What a call does before its schedule point. -/
def before (c : Controller) (self : ThreadId) : Call → Option Controller
  | .mutexLock a => ((c.mutexInfo a).startLock c.enableTable self).map (c.setMutex a)
  | .condWait a => some (c.setCond a ((c.condInfo a).startWait c.enableTable self false))
  | .condTimedwait a => some (c.setCond a ((c.condInfo a).startWait c.enableTable self true))
  | .barrierWait a => ((c.barrierInfo a).barrierWait c.enableTable self).map (c.setBarrier a)
  | .threadJoin child => some (c.setJoin child ((c.joinInfo child).startJoin c.enableTable self))
  | _ => some c

/-- A call until it waits for the permission to proceed. -/
def register (c : Controller) (self : ThreadId) (p : Pending) : Option Controller := do
  debugAssert (p.call.isRace = true ∨ c.enableTable self = true)
  let c ← c.before self p.call
  return { c with actionTable := c.actionTable.insert self p }

/-- What a call does after its schedule point, and what it returns. -/
def after (c : Controller) (self : ThreadId) : Call → Option (Errno × Controller)
  | .mutexTrylock a => ((c.mutexInfo a).mutexTryLock c.enableTable self).map fun r => (r.1, c.setMutex a r.2)
  | .mutexLock a => ((c.mutexInfo a).mutexLock c.enableTable self).map fun info => (.ok, c.setMutex a info)
  | .mutexUnlock a => ((c.mutexInfo a).mutexUnlock c.enableTable self).map fun info => (.ok, c.setMutex a info)
  | .condSignal a => ((c.condInfo a).condSignal c.enableTable).map fun info => (.ok, c.setCond a info)
  | .condBroadcast a => ((c.condInfo a).condBroadcast c.enableTable).map fun info => (.ok, c.setCond a info)
  | .condWait a => ((c.condInfo a).condWait c.enableTable self).map fun info => (.ok, c.setCond a info)
  | .condTimedwait a => ((c.condInfo a).condTimedwait c.enableTable self).map fun r =>
    (if r.1 then .etimedout else .ok, c.setCond a r.2)
  | .barrierInit a count => do
    debugAssert ((c.barrierInfo a).waitQueue = [])
    return (.ok, { c with
      barrierInfo := Function.update c.barrierInfo a { c.barrierInfo a with count := some count } })
  | .memRead _ | .memWrite _ => some (.ok, { c with raceActiveTable := c.raceActiveTable.insert self true })
  | .threadCreate | .threadJoin _ | .barrierWait _ | .sleep | .usleep | .schedYield => some (.ok, c)

/-- The permission is granted, and the call goes on. -/
def resume (c : Controller) (self : ThreadId) : Option (Errno × Controller) := do
  let p ← c.actionTable[self]?
  debugAssert (c.enableTable self = true)
  { c with actionTable := c.actionTable.erase self }.after self p.call

/-- `HandleAfterRaceRead` and `HandleAfterRaceWrite` -/
def handleAfterRace (c : Controller) (self : ThreadId) : Controller :=
  { c with raceActiveTable := c.raceActiveTable.insert self false }

/-- `AddEnabled` keys the actions by their threads. -/
def addEnabled (enabled : List Action) : State where
  enabled := (enabled.foldl (fun map a => map.insert a.thd a) (∅ : OrdMap Thread Action)).toList.map (·.2)

def createState (names : Interned) (schedRace : Bool) (c : Controller) : Option State :=
  match if schedRace then c.raceActiveTable.toList.find? (·.2) else none with
  | some (t, _) => do
    let p ← c.actionTable[t]?
    debugAssert (c.enableTable t = true)
    return addEnabled [p.action names t]
  | none => some (addEnabled ((c.actionTable.toList.filter fun e => c.enableTable e.1).map fun e => e.2.action names e.1))

end Controller

/-- How many threads have to arrive at a barrier in one round, and how many have arrived. -/
structure Round where
  size : ℕ := 0
  arrived : ℕ := 0

structure BarrierLog where
  current : ℕ := 0
  rounds : ℕ → Round := fun _ => {}

namespace BarrierLog

def init (log : BarrierLog) (count : ℕ) : BarrierLog :=
  { log with rounds := Function.update log.rounds log.current { size := count } }

/-- A round is over when all of its threads have arrived. -/
def arrive (log : BarrierLog) : BarrierLog :=
  let round := log.rounds log.current
  let here := Function.update log.rounds log.current { round with arrived := round.arrived + 1 }
  if round.arrived + 1 < round.size then { log with rounds := here }
  else { current := log.current + 1, rounds := Function.update here (log.current + 1) { size := round.size } }

end BarrierLog

/-- The controller, and what the program has done: the threads it runs, the mutexes that
they hold, and the rounds of its barriers. -/
structure ControlRun where
  control : Controller := {}
  alive : ThreadId → Bool := fun _ => false
  exited : ThreadId → Bool := fun _ => false
  held : ThreadId → Address → Bool := fun _ _ => false
  arrivals : Address → BarrierLog := fun _ => {}
  round : ThreadId → ℕ := fun _ => 0

inductive ControlEvent where
  | start (self : ThreadId)
  | call (self : ThreadId) (p : Pending)
  | resume (self : ThreadId)
  /-- The racy access is over. -/
  | endRace (self : ThreadId)
  | exit (self : ThreadId)

namespace ControlRun

def hold (r : ControlRun) (self : ThreadId) (a : Address) (holds : Bool) : ControlRun :=
  { r with held := Function.update r.held self (Function.update (r.held self) a holds) }

def recordCall (r : ControlRun) (self : ThreadId) : Call → ControlRun
  | .barrierWait a => { r with
    arrivals := Function.update r.arrivals a (r.arrivals a).arrive
    round := Function.update r.round self (r.arrivals a).current }
  | _ => r

def recordReturn (r : ControlRun) (self : ThreadId) (err : Errno) : Call → ControlRun
  | .mutexTrylock a => if err = .ok then r.hold self a true else r
  | .mutexLock a => r.hold self a true
  | .mutexUnlock a => r.hold self a false
  | .barrierInit a count => { r with arrivals := Function.update r.arrivals a ((r.arrivals a).init count.toNat) }
  | _ => r

def step (r : ControlRun) : ControlEvent → Option ControlRun
  | .start self => some { r with
    control := r.control.handleThreadStart self
    alive := Function.update r.alive self true }
  | .call self p => do
    let control ← r.control.register self p
    return ({ r with control }).recordCall self p.call
  | .resume self => do
    let p ← r.control.actionTable[self]?
    let (err, control) ← r.control.resume self
    return ({ r with control }).recordReturn self err p.call
  | .endRace self => some { r with control := r.control.handleAfterRace self }
  | .exit self => do
    let control ← r.control.handleThreadExit self
    return { r with
      control
      alive := Function.update r.alive self false
      exited := Function.update r.exited self true }

/-- The program locks no mutex that it holds, unlocks only those that it holds, and
initialises a barrier before it waits there. -/
def Disciplined (r : ControlRun) (self : ThreadId) : Call → Prop
  | .mutexLock a => r.held self a = false
  | .mutexUnlock a => r.held self a = true
  | .barrierWait a => (r.control.barrierInfo a).count ≠ none
  | _ => True

/-- A barrier is initialised while nobody waits there. -/
def Quiet (r : ControlRun) : Call → Prop
  | .barrierInit a _ => (r.control.barrierInfo a).waitQueue = []
  | _ => True

instance decidableDisciplined (r : ControlRun) (self : ThreadId) (call : Call) : Decidable (r.Disciplined self call) := by
  induction call using Call.casesOn <;> simp only [Disciplined] <;> infer_instance

instance decidableQuiet (r : ControlRun) (call : Call) : Decidable (r.Quiet call) := by
  induction call using Call.casesOn <;> simp only [Quiet] <;> infer_instance

/-- Threads have identifiers of their own, a thread is in one call at a time, and
permission is granted to a registered thread that is enabled. -/
def Allows (r : ControlRun) : ControlEvent → Prop
  | .start self => r.alive self = false ∧ r.exited self = false
  | .call self p => r.alive self = true ∧ r.control.actionTable[self]? = none ∧ r.Disciplined self p.call ∧
    (r.control.raceActiveTable[self]? = some true → p.call.isRace = true)
  | .resume self => r.control.enableTable self = true ∧ ∃ p ∈ r.control.actionTable[self]?, r.Quiet p.call
  | .endRace self => r.alive self = true ∧ r.control.actionTable[self]? = none
  | .exit self => r.alive self = true ∧ r.control.actionTable[self]? = none

instance decidableAllows (r : ControlRun) (e : ControlEvent) : Decidable (r.Allows e) := by
  induction e using ControlEvent.casesOn <;> simp only [Allows] <;> infer_instance

abbrev Reachable : ControlRun → Prop := Runs.Reach (· = {}) Allows step

end ControlRun

end Maple.Systematic
