import Maple.Idiom.IRootDb
import Maple.Idiom.PredictorSync

/-! Access summaries of `idiom/predictor_new.cc` and the dependencies between them that
are found while a program runs. The complex idioms are switched off, as they are by
default. -/
namespace Maple.Idiom

/-- Identity of a `Meta *`. -/
abbrev MetaId := ℕ

/-- Addresses of what the process has allocated. -/
structure Pointers where
  meta_ : MetaId → BitVec 64
  inst : InstId → BitVec 64

/-- Each lock with two flags: the access is the first one, or the last one, of its thread
with the lock in this version. -/
structure FLockSet where
  lockFlagTable : OrdMap Address (Bool × Bool) := ∅

def invalidTimestamp : ℕ := 2 ^ 64 - 1

structure ThdClkInfo where
  start : ℕ := invalidTimestamp
  stop : ℕ := invalidTimestamp

def addThdClk (info : ThdClkInfo) (thdClk : ℕ) : ThdClkInfo :=
  ⟨if info.start = invalidTimestamp then thdClk else info.start, thdClk⟩

structure AccSum where
  metaId : MetaId
  thdId : ThreadId
  type : IRootEventType
  inst : InstId
  fls : FLockSet
  tinfo : List (VectorClock × ThdClkInfo)

structure DynAcc where
  metaId : MetaId
  thdId : ThreadId
  thdClk : ℕ
  type : IRootEventType
  inst : InstId
  vc : VectorClock
  ls : LockSet
  fls : FLockSet

/-- Summaries are identified by their place in the memory of the predictor. -/
structure AccHisto where
  accSumTable : OrdMap ThreadId (List ℕ) := ∅
  lastDynAccTable : OrdMap ThreadId DynAcc := ∅

structure PairIndex where
  succ : OrdMap ℕ (List ℕ) := ∅
  pred : OrdMap ℕ (List ℕ) := ∅

namespace PairIndex

def succOf (ix : PairIndex) (src : ℕ) : List ℕ := ix.succ[src]?.getD []

def predOf (ix : PairIndex) (dst : ℕ) : List ℕ := ix.pred[dst]?.getD []

def existAccSumPair (ix : PairIndex) (src dst : ℕ) : Bool := (ix.succOf src).contains dst

def addAccSumPair (ix : PairIndex) (src dst : ℕ) : PairIndex where
  succ := ix.succ.insert src (ix.succOf src ++ [dst])
  pred := ix.pred.insert dst (ix.predOf dst ++ [src])

end PairIndex

structure PredictorNew where
  sync : SyncState := {}
  accSums : List AccSum := []
  accHistos : OrdMap MetaId AccHisto := ∅
  accSumHashIndex : OrdMap (BitVec 64) (List ℕ) := ∅
  pairs : PairIndex := {}

namespace FLockSet

def hash (fls : FLockSet) : BitVec 64 :=
  fls.lockFlagTable.toList.foldl
    (fun hashVal (addr, flag) => hashVal + addr + (bif flag.1 then 1 else 0) + (bif flag.2 then 1 else 0)) 0

/-- `Match` of two flagged lock sets. -/
def isMatch (fls1 fls2 : FLockSet) : Bool :=
  fls1.lockFlagTable.size = fls2.lockFlagTable.size &&
    fls1.lockFlagTable.toList.all fun (addr, flag) =>
      match fls2.lockFlagTable[addr]? with
      | none => false
      | some other => other.1 = flag.1 && other.2 = flag.2

def updateFirstFlag (fls : FLockSet) (lastLs currLs : LockSet) : FLockSet :=
  ⟨currLs.toList.foldl (fun table (addr, version) =>
    let flag := table[addr]?.getD (false, false)
    table.insert addr (!lastLs.exist addr version || flag.1, false)) fls.lockFlagTable⟩

/-- There is no current lock set when the memory is freed. -/
def updateLastFlag (fls : FLockSet) (lastLs : LockSet) (currLs : Option LockSet) : FLockSet :=
  ⟨lastLs.toList.foldl (fun table (addr, version) =>
    let flag := table[addr]?.getD (false, false)
    table.insert addr (flag.1, !currLs.any (·.exist addr version) || flag.2)) fls.lockFlagTable⟩

end FLockSet

/-- `conflict_table_`. -/
def checkConflict : IRootEventType → IRootEventType → Bool
  | .memRead, .memWrite | .memWrite, .memRead | .memWrite, .memWrite | .mutexUnlock, .mutexLock => true
  | _, _ => false

/-- A common lock must be at its last access in the source and at its first in the
destination. -/
def checkMutexExclution (srcFls dstFls : FLockSet) : Bool :=
  srcFls.lockFlagTable.toList.all fun (addr, flag) =>
    match dstFls.lockFlagTable[addr]? with
    | none => true
    | some other => flag.2 && other.1

/-- The loop of `CheckConcurrent`, which starts with the newest entry. -/
def concurrentLoop (vc : VectorClock) : List (VectorClock × ThdClkInfo) → Bool
  | [] => false
  | entry :: older =>
    if entry.1.happensBefore vc then false
    else if !vc.happensBefore entry.1 then true
    else concurrentLoop vc older

def checkConcurrent (vc : VectorClock) (rmt : AccSum) : Bool := concurrentLoop vc rmt.tinfo.reverse

def checkAtomic (atomicInstSet : InstId → Bool) (src dst : AccSum) : Bool :=
  !(atomicInstSet src.inst && src.type = .memRead) && !(atomicInstSet dst.inst && dst.type = .memWrite)

namespace PredictorNew

def accHisto (p : PredictorNew) (metaId : MetaId) : AccHisto := p.accHistos[metaId]?.getD {}

def hash (ptrs : Pointers) (metaId : MetaId) (thdId : ThreadId) (type : IRootEventType) (inst : InstId)
    (fls : FLockSet) : BitVec 64 :=
  ptrs.meta_ metaId + BitVec.ofNat 64 thdId + type.word + ptrs.inst inst + fls.hash

def matchAccSum (ptrs : Pointers) (p : PredictorNew) (dynAcc : DynAcc) : Option ℕ :=
  (p.accSumHashIndex[hash ptrs dynAcc.metaId dynAcc.thdId dynAcc.type dynAcc.inst dynAcc.fls]?.getD []).find? fun s =>
    p.accSums[s]?.any fun accSum =>
      accSum.metaId = dynAcc.metaId && accSum.thdId = dynAcc.thdId && accSum.type = dynAcc.type &&
        accSum.inst = dynAcc.inst && accSum.fls.isMatch dynAcc.fls

/-- One of the two blocks of the search: `src -> dst`, where one side is `rmt` and `vc`
is the clock of the other. -/
def predict (atomicInstSet : InstId → Bool) (vc : VectorClock) (rmt : AccSum) (ix : PairIndex)
    (src dst : ℕ × AccSum) : PairIndex :=
  if checkConflict src.2.type dst.2.type && !ix.existAccSumPair src.1 dst.1 &&
      checkMutexExclution src.2.fls dst.2.fls && checkConcurrent vc rmt && checkAtomic atomicInstSet src.2 dst.2 then
    ix.addAccSumPair src.1 dst.1
  else ix

/-- The body of the search: predecessors of the current summary, then successors. -/
def searchStep (atomicInstSet : InstId → Bool) (p : PredictorNew) (vc : VectorClock) (curr : ℕ) (ix : PairIndex)
    (rmt : ℕ) : Option PairIndex := do
  let currAccSum ← p.accSums[curr]?
  let rmtAccSum ← p.accSums[rmt]?
  debugAssert (currAccSum.metaId = rmtAccSum.metaId)
  let ix := predict atomicInstSet vc rmtAccSum ix (rmt, rmtAccSum) (curr, currAccSum)
  return predict atomicInstSet vc rmtAccSum ix (curr, currAccSum) (rmt, rmtAccSum)

/-- The summaries of other threads, in the order of the search. -/
def remotes (p : PredictorNew) (metaId : MetaId) (thdId : ThreadId) : List ℕ :=
  ((p.accHisto metaId).accSumTable.toList.filter fun entry => entry.1 ≠ thdId).flatMap fun entry => entry.2

def search (atomicInstSet : InstId → Bool) (p : PredictorNew) (dynAcc : DynAcc) (curr : ℕ) : Option PredictorNew := do
  let currAccSum ← p.accSums[curr]?
  let pairs ← (p.remotes dynAcc.metaId currAccSum.thdId).foldlM (p.searchStep atomicInstSet dynAcc.vc curr) p.pairs
  return { p with pairs := pairs }

/-- The clocks of a summary are changed in place. -/
def setTinfo (p : PredictorNew) (s : ℕ) (accSum : AccSum) (tinfo : List (VectorClock × ThdClkInfo)) : PredictorNew :=
  { p with accSums := p.accSums.set s { accSum with tinfo := tinfo } }

def createAccSum (ptrs : Pointers) (p : PredictorNew) (dynAcc : DynAcc) : PredictorNew :=
  let accSum : AccSum := ⟨dynAcc.metaId, dynAcc.thdId, dynAcc.type, dynAcc.inst, dynAcc.fls,
    [(dynAcc.vc, ⟨dynAcc.thdClk, dynAcc.thdClk⟩)]⟩
  let histo := p.accHisto dynAcc.metaId
  let table := histo.accSumTable.insert dynAcc.thdId
    (histo.accSumTable[dynAcc.thdId]?.getD [] ++ [p.accSums.length])
  let hashVal := hash ptrs accSum.metaId accSum.thdId accSum.type accSum.inst accSum.fls
  { p with
    accSums := p.accSums ++ [accSum]
    accHistos := p.accHistos.insert dynAcc.metaId { histo with accSumTable := table }
    accSumHashIndex := p.accSumHashIndex.insert hashVal
      (p.accSumHashIndex[hashVal]?.getD [] ++ [p.accSums.length]) }

def processAccSumUpdate (ptrs : Pointers) (atomicInstSet : InstId → Bool) (p : PredictorNew) (dynAcc : DynAcc) :
    Option (PredictorNew × ℕ) :=
  match p.matchAccSum ptrs dynAcc with
  | some s => do
    let accSum ← p.accSums[s]?
    let tinfoEntry ← accSum.tinfo.getLast?
    if dynAcc.vc.equal tinfoEntry.1 then
      return (p.setTinfo s accSum
        (accSum.tinfo.dropLast ++ [(tinfoEntry.1, addThdClk tinfoEntry.2 dynAcc.thdClk)]), s)
    else do
      let p := p.setTinfo s accSum (accSum.tinfo ++ [(dynAcc.vc, ⟨dynAcc.thdClk, dynAcc.thdClk⟩)])
      let p ← p.search atomicInstSet dynAcc s
      return (p, s)
  | none => do
    let s := p.accSums.length
    let p ← (p.createAccSum ptrs dynAcc).search atomicInstSet dynAcc s
    return (p, s)

def setLastDynAcc (p : PredictorNew) (dynAcc : DynAcc) : PredictorNew :=
  let histo := p.accHisto dynAcc.metaId
  let updated := { histo with lastDynAccTable := histo.lastDynAccTable.insert dynAcc.thdId dynAcc }
  { p with accHistos := p.accHistos.insert dynAcc.metaId updated }

/-- Also returns the summary of the thread's last access, if there was one. -/
def processiRootEvent (ptrs : Pointers) (atomicInstSet : InstId → Bool) (p : PredictorNew) (currThdId : ThreadId)
    (currThdClk : ℕ) (type : IRootEventType) (inst : InstId) (metaId : MetaId) :
    Option (PredictorNew × Option ℕ) := do
  let currVc ← p.sync.currVcMap[currThdId]?
  let currLs ← p.sync.currLsMap[currThdId]?
  let last := (p.accHisto metaId).lastDynAccTable[currThdId]?
  let (p, accSum) ← match last with
    | none => some (p, none)
    | some dynAcc =>
      (p.processAccSumUpdate ptrs atomicInstSet
        { dynAcc with fls := dynAcc.fls.updateLastFlag dynAcc.ls (some currLs) }).map fun got => (got.1, some got.2)
  let lastLs := (last.map (·.ls)).getD ∅
  return (p.setLastDynAcc ⟨metaId, currThdId, currThdClk, type, inst, currVc, currLs,
    ({} : FLockSet).updateFirstFlag lastLs currLs⟩, accSum)

/-- One round of the loop of `ProcessFree`. -/
def processLast (ptrs : Pointers) (atomicInstSet : InstId → Bool) (p : PredictorNew) (dynAcc : DynAcc) :
    Option (PredictorNew × ℕ) :=
  p.processAccSumUpdate ptrs atomicInstSet { dynAcc with fls := dynAcc.fls.updateLastFlag dynAcc.ls none }

/-- `ProcessFree` up to the call of `ProcessAccSumPairUpdate`. -/
def processFree (ptrs : Pointers) (atomicInstSet : InstId → Bool) (p : PredictorNew) (metaId : MetaId) :
    Option PredictorNew :=
  (p.accHisto metaId).lastDynAccTable.toList.foldlM
    (fun p entry => (p.processLast ptrs atomicInstSet entry.2).map Prod.fst) p

end PredictorNew
end Maple.Idiom
