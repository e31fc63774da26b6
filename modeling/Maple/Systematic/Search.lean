import Maple.Systematic.Fair
import Maple.Systematic.PorRuns

/-! The search stack of `systematic/search.cc`, the messages of `systematic/search.proto`
that it is saved in, and the loop of `systematic/chess.cc` that explores one schedule. A
search node is a position of the stack. -/
namespace Maple.Systematic

/-- What is compared to detect a divergence. -/
structure ActionInfo where
  thd : Thread
  obj : Option Object
  op : Operation
  inst : Option InstId
  deriving DecidableEq

def ActionInfo.ofAction (a : Action) : ActionInfo := ⟨a.thd, a.obj, a.op, a.inst⟩

structure SearchNode where
  sel : Option Thread := none
  backtrack : ThreadSet := ∅
  done : ThreadSet := ∅
  enabled : OrdMap Thread ActionInfo := ∅

namespace SearchNode

def isBacktrack (node : SearchNode) (thd : Thread) : Bool := node.backtrack.contains thd
def isDone (node : SearchNode) (thd : Thread) : Bool := node.done.contains thd
def addDone (node : SearchNode) (thd : Thread) : SearchNode := { node with done := node.done.insert thd }
def addBacktrack (node : SearchNode) (thd : Thread) : SearchNode :=
  { node with backtrack := node.backtrack.insert thd }
def finished (node : SearchNode) : Bool := node.backtrack.toList.all node.isDone

end SearchNode

structure ActionInfoProto where
  thdUid : BitVec 32
  objUid : Option (BitVec 32)
  op : Operation
  instId : Option (BitVec 32)

structure SearchNodeProto where
  sel : BitVec 32
  backtrack : List (BitVec 32)
  done : List (BitVec 32)
  enabled : List ActionInfoProto

/-- The number of runs is bounded by the time that they take. -/
structure SearchInfoProto where
  done : Bool := false
  numRuns : ℕ := 0
  node : List SearchNodeProto := []

/-- `uid()` and `id()`, with `FindThread` and `FindObject` of the program and `FindInst` of
the static information. -/
structure Registry extends Ids where
  findThread : BitVec 32 → Option Thread
  findObject : BitVec 32 → Option Object
  findInst : BitVec 32 → Option InstId

structure SearchInfo where
  done : Bool := false
  numRuns : ℕ := 0
  stack : List SearchNode := []
  cursor : ℕ := 0

namespace SearchInfo

def checkDivergence (node : SearchNode) (state : State) : Bool :=
  node.enabled.size = state.enabled.length && node.enabled.toList.all fun (thd, info) =>
    match state.findEnabled thd with
    | none => false
    | some action => info.thd = action.thd && info.obj = action.obj && info.op = action.op && info.inst = action.inst

/-- The node of a state that is reached for the first time. -/
def newNode (state : State) : SearchNode where
  enabled := state.enabled.foldl (fun map a => map.insert a.thd (.ofAction a)) ∅

/-- `GetNextNode`, with the position of the node, or none if the run diverges. -/
def getNextNode (info : SearchInfo) (state : State) : Option (SearchInfo × Option ℕ) := do
  debugAssert (info.cursor ≤ info.stack.length)
  match info.stack[info.cursor]? with
  | none => return ({ info with stack := info.stack ++ [newNode state], cursor := info.cursor + 1 }, info.cursor)
  | some node =>
    if checkDivergence node state then return ({ info with cursor := info.cursor + 1 }, info.cursor)
    else return (info, none)

def updateForNext (info : SearchInfo) : SearchInfo :=
  let stack := info.stack.rdropWhile SearchNode.finished
  { info with stack, done := info.done || stack.isEmpty, numRuns := info.numRuns + 1 }

def saveAction (ids : Ids) (info : ActionInfo) : ActionInfoProto :=
  ⟨ids.thd info.thd, info.obj.map ids.obj, info.op, info.inst.map ids.inst⟩

/-- A node is saved only after a thread has been selected in it. -/
def saveNode (ids : Ids) (node : SearchNode) : Option SearchNodeProto := do
  let sel ← node.sel
  return {
    sel := ids.thd sel
    backtrack := node.backtrack.toList.map ids.thd
    done := node.done.toList.map ids.thd
    enabled := node.enabled.toList.map fun entry => saveAction ids entry.2 }

def save (ids : Ids) (info : SearchInfo) : Option SearchInfoProto := do
  return { done := info.done, numRuns := info.numRuns, node := ← info.stack.mapM (saveNode ids) }

/-- A thread that is not found would become a null key. -/
def loadAction (r : Registry) (proto : ActionInfoProto) : Option ActionInfo := do
  let thd ← r.findThread proto.thdUid
  return ⟨thd, proto.objUid.bind r.findObject, proto.op, proto.instId.bind r.findInst⟩

def loadNode (r : Registry) (proto : SearchNodeProto) : Option SearchNode := do
  let sel ← r.findThread proto.sel
  let backtrack ← proto.backtrack.mapM r.findThread
  let done ← proto.done.mapM r.findThread
  let enabled ← proto.enabled.mapM (loadAction r)
  return {
    sel := some sel
    backtrack := backtrack.foldl (fun set thd => set.insert thd) ∅
    done := done.foldl (fun set thd => set.insert thd) ∅
    enabled := enabled.foldl (fun map info => map.insert info.thd info) ∅ }

def load (r : Registry) (proto : SearchInfoProto) : Option SearchInfo := do
  return { done := proto.done, numRuns := proto.numRuns, stack := ← proto.node.mapM (loadNode r) }

end SearchInfo

/-- What is enabled is a function of the threads scheduled so far. Maps are ordered by the
addresses of the threads, which differ from process to process. -/
structure Deterministic where
  enabled : ℕ → List Thread → List Action
  distinct : ∀ n σ, ((enabled n σ).map (·.thd)).Nodup
  same : ∀ n σ, (enabled n σ).Perm (enabled 0 σ)

structure Knobs where
  fair : Bool := true
  pb : Bool := true
  por : Bool := true
  pbLimit : ℤ := 2

/-- The execution so far, as the scheduler and the fair control know it. -/
structure Explored where
  chess : ChessScheduler
  fairCtrl : FairControl := {}

namespace Explored

/-- `ProgramStart` and the initial state. -/
def start (prog : Deterministic) (run : ℕ) (info : PorInfo) : Explored where
  chess := .programStart info { enabled := prog.enabled run [] }

def schedule (e : Explored) : List Thread := (e.chess.past.reverse.filterMap State.taken).map (·.thd)

def isPreemptive (e : Explored) (a : Action) : Bool := isPreemptiveChoice e.chess.currAction e.chess.currState a

def fairUpdate (e : Explored) : Option Explored := do
  return { e with fairCtrl := ← e.fairCtrl.update e.chess.past.head? e.chess.currState }

def arrive (k : Knobs) (e : Explored) : Option Explored := if k.fair then e.fairUpdate else pure e

def pbEnabled (k : Knobs) (e : Explored) (a : Action) : Bool :=
  !(e.isPreemptive a && (e.chess.currPreemptions + 1 : ℤ) > k.pbLimit)

def fairEnabled (e : Explored) (a : Action) : Bool := e.fairCtrl.enabled e.chess.currState a

/-- `PbUpdate`, `PorUpdate` and `Execute`, where the controller returns the next state of
the program. -/
def take (ids : Ids) (k : Knobs) (prog : Deterministic) (run : ℕ) (e : Explored) (a : Action) : Option Explored := do
  let chess := if k.pb then e.chess.pbUpdate a else e.chess
  let chess ← if k.por then chess.porUpdate ids a else pure chess
  let returned : State := { enabled := prog.enabled run (e.schedule ++ [a.thd]) }
  let (stored, counters, currState) := chess.counters.execute chess.currState a returned
  return { e with chess := { chess with counters, past := stored :: chess.past, currAction := some a, currState } }

end Explored

/-- `ChessScheduler` while it explores. -/
structure Explorer where
  explored : Explored
  searchInfo : SearchInfo
  currNode : ℕ := 0
  prefixSize : ℕ
  useless : Bool := false
  divergence : Bool := false

namespace Explorer

def isFrontier (p : Explorer) : Bool := p.currNode + 1 = p.prefixSize

def isPrefix (p : Explorer) : Bool := !p.isFrontier && p.currNode < p.prefixSize

def modifyNode (p : Explorer) (f : SearchNode → SearchNode) : Explorer :=
  { p with searchInfo := { p.searchInfo with stack := p.searchInfo.stack.modify p.currNode f } }

def updateBacktrack (p : Explorer) : Explorer :=
  p.modifyNode fun node => p.explored.chess.currState.enabled.foldl (fun node a => node.addBacktrack a.thd) node

/-- The body of the loop in the first pass of `PickNext`. -/
def prune (ids : Ids) (k : Knobs) (info : PorInfo) (e : Explored) (node : SearchNode) (a : Action) :
    Option SearchNode := do
  if node.isDone a.thd then return node
  let node := if k.fair && !e.fairEnabled a then node.addDone a.thd else node
  let node := if k.pb && !e.pbEnabled k a then node.addDone a.thd else node
  let visited ← if k.por then e.chess.porVisited ids info a else pure false
  return if visited then node.addDone a.thd else node

/-- The body of the loop in the second pass, which favours choices that do not preempt. -/
def choose (e : Explored) (node : SearchNode) (next : Option Action) (a : Action) : Option Action :=
  if node.isDone a.thd then next
  else match next with
    | none => some a
    | some other => if e.isPreemptive a then some other else some a

def pickNext (ids : Ids) (k : Knobs) (info : PorInfo) (p : Explorer) : Option (Explorer × Option Action) := do
  let node ← p.searchInfo.stack[p.currNode]?
  let enabled := p.explored.chess.currState.enabled
  if p.isPrefix then
    let next ← p.explored.chess.currState.findEnabled (← node.sel)
    return (p, some next)
  else
    let pruned ← enabled.foldlM (prune ids k info p.explored) node
    return (p.modifyNode fun _ => pruned, enabled.foldl (choose p.explored pruned) none)

/-- The body of the loop of `Explore`, and whether the loop goes on. What remains of a
diverging or useless run takes random actions that are not recorded in the search
information; it is left out. -/
def round (ids : Ids) (k : Knobs) (info : PorInfo) (prog : Deterministic) (run : ℕ) (p : Explorer) :
    Option (Explorer × Bool) := do
  let (searchInfo, node) ← p.searchInfo.getNextNode p.explored.chess.currState
  match node with
  | none => return ({ p with searchInfo, divergence := true }, false)
  | some currNode =>
    let p := { p with searchInfo, currNode }
    let p := if p.isPrefix then p else p.updateBacktrack
    let explored ← p.explored.arrive k
    let (p, next) ← pickNext ids k info { p with explored }
    match next with
    | none => return ({ p with useless := true }, false)
    | some a =>
      let p := p.modifyNode fun node => { node with sel := some a.thd }
      let p := if p.isPrefix then p else p.modifyNode fun node => node.addDone a.thd
      let explored ← p.explored.take ids k prog run a
      return ({ p with explored }, true)

def explore (ids : Ids) (k : Knobs) (info : PorInfo) (prog : Deterministic) (run : ℕ) :
    ℕ → Explorer → Option Explorer
  | fuel, p =>
    if p.explored.chess.currState.isTerminal then some p
    else match fuel with
      | 0 => none
      | fuel + 1 => do
        let (p, goes) ← round ids k info prog run p
        if goes then explore ids k info prog run fuel p else return p

end Explorer

/-- The files `search.db` and those below `por-info`. -/
structure SearchDisk where
  search : SearchInfoProto := {}
  por : PorInfo := {}

namespace SearchDisk

/-- `Setup` and `ProgramStart`, unless the search is done. -/
def start (r : Registry) (prog : Deterministic) (run : ℕ) (disk : SearchDisk) : Option (Option Explorer) := do
  let searchInfo ← SearchInfo.load r disk.search
  if searchInfo.done then return none
  return some { explored := .start prog run disk.por, searchInfo, prefixSize := searchInfo.stack.length }

/-- `ProgramExit`. -/
def programExit (ids : Ids) (k : Knobs) (disk : SearchDisk) (p : Explorer) : Option SearchDisk := do
  let por := if k.por && !p.divergence && !p.useless then ChessScheduler.porSave disk.por p.explored.chess else disk.por
  if p.divergence then return { disk with por }
  return { search := ← p.searchInfo.updateForNext.save ids, por }

/-- Runs until `search done`. -/
def searchFrom (r : Registry) (k : Knobs) (prog : Deterministic) (steps : ℕ) :
    ℕ → ℕ → SearchDisk → Option (List Explorer)
  | 0, _, _ => none
  | runs + 1, run, disk => do
    match ← start r prog run disk with
    | none => return []
    | some p =>
      let p ← p.explore r.toIds k disk.por prog run steps
      let disk ← disk.programExit r.toIds k p
      return p :: (← searchFrom r k prog steps runs (run + 1) disk)

end SearchDisk

end Maple.Systematic
