import Maple.Idiom.PredictorNew
import Maple.Lib.Covers
import Maple.Lib.Merge

/-! `ProcessAccSumPairUpdate` of `idiom/predictor_new.cc`, which adds the ordered dependencies
when the history of a meta is complete. -/
namespace Maple.Idiom

/-- The accesses of a thread at one vector clock, by their earliest and latest summary. -/
structure TimedEntry where
  vc : VectorClock
  first : ℕ
  last : ℕ

namespace PredictorNew

/-- A summary and its time, behind one more summary of the segment. -/
def updateBest (time : ThdClkInfo → ℕ) (better : ℕ → ℕ → Bool) (preferred : IRootEventType) (p : PredictorNew)
    (best : Option (ℕ × ℕ)) (entry : ℕ × ThdClkInfo) : Option (ℕ × ℕ) :=
  match best with
  | none => some (entry.1, time entry.2)
  | some (_, bestTime) =>
    if better (time entry.2) bestTime then some (entry.1, time entry.2)
    else if time entry.2 = bestTime ∧ p.accSums[entry.1]?.any (·.type = preferred) then some (entry.1, bestTime)
    else best

/-- `start_acc_sum` and `start_time`. -/
def updateStart : PredictorNew → Option (ℕ × ℕ) → ℕ × ThdClkInfo → Option (ℕ × ℕ) :=
  updateBest (·.start) (fun time best => time < best) .memRead

/-- `end_acc_sum` and `end_time`. -/
def updateEnd : PredictorNew → Option (ℕ × ℕ) → ℕ × ThdClkInfo → Option (ℕ × ℕ) :=
  updateBest (·.stop) (fun time best => best < time) .memWrite

def timedEntry (p : PredictorNew) (segment : VectorClock × List (ℕ × ThdClkInfo)) : Option TimedEntry := do
  let (first, _) ← segment.2.foldl p.updateStart none
  let (last, _) ← segment.2.foldl p.updateEnd none
  return ⟨segment.1, first, last⟩

/-- Step 1 for the summaries of one thread. Each round of the loop finishes an entry. -/
def timedEntryVec (p : PredictorNew) (accSumVec : List ℕ) : Option (List TimedEntry) := do
  let cursors ← accSumVec.mapM fun s => p.accSums[s]?.map fun accSum => (s, accSum.tinfo)
  debugAssert (∀ cursor ∈ cursors, cursor.2 ≠ [])
  let segments ← Merge.merge VectorClock.happensBefore VectorClock.equal (Merge.size cursors) cursors
  segments.mapM p.timedEntry

def timedEntryTable (p : PredictorNew) (metaId : MetaId) : Option (Covers.Chains ThreadId TimedEntry) :=
  (p.accHisto metaId).accSumTable.toList.mapM fun entry => (p.timedEntryVec entry.2).map (entry.1, ·)

/-- Step 2 up to the checks: a source and a destination. -/
def immediatePairs (table : Covers.Chains ThreadId TimedEntry) : List (ℕ × ℕ) :=
  (Covers.considered (fun e f => e.vc.happensBefore f.vc) table).map fun pair => (pair.1.2.last, pair.2.2.first)

/-- The pairs that `ProcessAccSumPairUpdate` considers. -/
def consideredPairs (p : PredictorNew) (metaId : MetaId) : Option (List (ℕ × ℕ)) :=
  if (p.accHisto metaId).accSumTable.size < 2 then some [] else (p.timedEntryTable metaId).map immediatePairs

def predictOrdered (p : PredictorNew) (ix : PairIndex) (pair : ℕ × ℕ) : Option PairIndex := do
  let src ← p.accSums[pair.1]?
  let dst ← p.accSums[pair.2]?
  return if checkConflict src.type dst.type && !ix.existAccSumPair pair.1 pair.2 && checkMutexExclution src.fls dst.fls
    then ix.addAccSumPair pair.1 pair.2 else ix

def processAccSumPairUpdate (p : PredictorNew) (metaId : MetaId) : Option PredictorNew := do
  let considered ← p.consideredPairs metaId
  let pairs ← considered.foldlM p.predictOrdered p.pairs
  return { p with pairs }

end PredictorNew
end Maple.Idiom
