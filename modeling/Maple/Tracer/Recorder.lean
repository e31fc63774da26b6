import Maple.Tracer.Hooks
import Maple.Tracer.Log

/-! `tracer/recorder.h`: every hook that it overrides writes one entry. -/
namespace Maple.Tracer
variable {Inst Image : Type}

namespace RecorderAnalyzer

def imageEntry (sinfo : StaticInfo Inst Image) (type : LogEntryType) (image : Image) (args : List Word) : LogEntry :=
  { type, args := (sinfo.imageId image).setWidth 64 :: args }

def threadEntry (type : LogEntryType) (thdId thdClk : Word) (args : List Word) : LogEntry :=
  { type, thdIdField := some thdId, thdClkField := some thdClk, args }

def instEntry (sinfo : StaticInfo Inst Image) (type : LogEntryType) (thdId thdClk : Word) (inst : Inst)
    (args : List Word) : LogEntry :=
  { type, thdIdField := some thdId, thdClkField := some thdClk, instIdField := some (sinfo.instId inst), args }

/-- What a hook puts into its entry. Calls and returns are left to the base class, which does nothing. -/
def entry (sinfo : StaticInfo Inst Image) : Hook Inst Image → Option LogEntry
  | .programStart => some { type := .programStart }
  | .programExit => some { type := .programExit }
  | .imageLoad image lowAddr highAddr dataStart dataSize bssStart bssSize =>
    some (imageEntry sinfo .imageLoad image [lowAddr, highAddr, dataStart, dataSize, bssStart, bssSize])
  | .imageUnload image lowAddr highAddr dataStart dataSize bssStart bssSize =>
    some (imageEntry sinfo .imageUnload image [lowAddr, highAddr, dataStart, dataSize, bssStart, bssSize])
  | .syscallEntry curr clk syscallNum => some (threadEntry .syscallEntry curr clk [syscallNum.signExtend 64])
  | .syscallExit curr clk syscallNum => some (threadEntry .syscallExit curr clk [syscallNum.signExtend 64])
  | .signalReceived curr clk signalNum => some (threadEntry .signalReceived curr clk [signalNum.signExtend 64])
  | .threadStart curr parent => some { type := .threadStart, thdIdField := some curr, args := [parent] }
  | .threadExit curr clk => some (threadEntry .threadExit curr clk [])
  | .main curr clk => some (threadEntry .main curr clk [])
  | .threadMain curr clk => some (threadEntry .threadMain curr clk [])
  | .beforeMemRead curr clk inst addr size => some (instEntry sinfo .beforeMemRead curr clk inst [addr, size])
  | .afterMemRead curr clk inst addr size => some (instEntry sinfo .afterMemRead curr clk inst [addr, size])
  | .beforeMemWrite curr clk inst addr size => some (instEntry sinfo .beforeMemWrite curr clk inst [addr, size])
  | .afterMemWrite curr clk inst addr size => some (instEntry sinfo .afterMemWrite curr clk inst [addr, size])
  | .beforeAtomicInst curr clk inst type addr =>
    some { instEntry sinfo .beforeAtomicInst curr clk inst [addr] with strArgs := [type] }
  | .afterAtomicInst curr clk inst type addr =>
    some { instEntry sinfo .afterAtomicInst curr clk inst [addr] with strArgs := [type] }
  | .beforePthreadCreate curr clk inst => some (instEntry sinfo .beforePthreadCreate curr clk inst [])
  | .afterPthreadCreate curr clk inst child => some (instEntry sinfo .afterPthreadCreate curr clk inst [child])
  | .beforePthreadJoin curr clk inst child => some (instEntry sinfo .beforePthreadJoin curr clk inst [child])
  | .afterPthreadJoin curr clk inst child => some (instEntry sinfo .afterPthreadJoin curr clk inst [child])
  | .beforePthreadMutexTryLock curr clk inst addr =>
    some (instEntry sinfo .beforePthreadMutexTryLock curr clk inst [addr])
  | .afterPthreadMutexTryLock curr clk inst addr retVal =>
    some (instEntry sinfo .afterPthreadMutexTryLock curr clk inst [addr, retVal.signExtend 64])
  | .beforePthreadMutexLock curr clk inst addr => some (instEntry sinfo .beforePthreadMutexLock curr clk inst [addr])
  | .afterPthreadMutexLock curr clk inst addr => some (instEntry sinfo .afterPthreadMutexLock curr clk inst [addr])
  | .beforePthreadMutexUnlock curr clk inst addr => some (instEntry sinfo .beforePthreadMutexUnlock curr clk inst [addr])
  | .afterPthreadMutexUnlock curr clk inst addr => some (instEntry sinfo .afterPthreadMutexUnlock curr clk inst [addr])
  | .beforePthreadCondSignal curr clk inst addr => some (instEntry sinfo .beforePthreadCondSignal curr clk inst [addr])
  | .afterPthreadCondSignal curr clk inst addr => some (instEntry sinfo .afterPthreadCondSignal curr clk inst [addr])
  | .beforePthreadCondBroadcast curr clk inst addr =>
    some (instEntry sinfo .beforePthreadCondBroadcast curr clk inst [addr])
  | .afterPthreadCondBroadcast curr clk inst addr =>
    some (instEntry sinfo .afterPthreadCondBroadcast curr clk inst [addr])
  | .beforePthreadCondWait curr clk inst condAddr mutexAddr =>
    some (instEntry sinfo .beforePthreadCondWait curr clk inst [condAddr, mutexAddr])
  | .afterPthreadCondWait curr clk inst condAddr mutexAddr =>
    some (instEntry sinfo .afterPthreadCondWait curr clk inst [condAddr, mutexAddr])
  | .beforePthreadCondTimedwait curr clk inst condAddr mutexAddr =>
    some (instEntry sinfo .beforePthreadCondTimedwait curr clk inst [condAddr, mutexAddr])
  | .afterPthreadCondTimedwait curr clk inst condAddr mutexAddr =>
    some (instEntry sinfo .afterPthreadCondTimedwait curr clk inst [condAddr, mutexAddr])
  | .beforePthreadBarrierInit curr clk inst addr count =>
    some (instEntry sinfo .beforePthreadBarrierInit curr clk inst [addr, count.setWidth 64])
  | .afterPthreadBarrierInit curr clk inst addr count =>
    some (instEntry sinfo .afterPthreadBarrierInit curr clk inst [addr, count.setWidth 64])
  | .beforePthreadBarrierWait curr clk inst addr => some (instEntry sinfo .beforePthreadBarrierWait curr clk inst [addr])
  | .afterPthreadBarrierWait curr clk inst addr => some (instEntry sinfo .afterPthreadBarrierWait curr clk inst [addr])
  | .beforeMalloc curr clk inst size => some (instEntry sinfo .beforeMalloc curr clk inst [size])
  | .afterMalloc curr clk inst size addr => some (instEntry sinfo .afterMalloc curr clk inst [size, addr])
  | .beforeCalloc curr clk inst nmemb size => some (instEntry sinfo .beforeCalloc curr clk inst [nmemb, size])
  | .afterCalloc curr clk inst nmemb size addr => some (instEntry sinfo .afterCalloc curr clk inst [nmemb, size, addr])
  | .beforeRealloc curr clk inst oriAddr size => some (instEntry sinfo .beforeRealloc curr clk inst [oriAddr, size])
  | .afterRealloc curr clk inst oriAddr size newAddr =>
    some (instEntry sinfo .afterRealloc curr clk inst [oriAddr, size, newAddr])
  | .beforeFree curr clk inst addr => some (instEntry sinfo .beforeFree curr clk inst [addr])
  | .afterFree curr clk inst addr => some (instEntry sinfo .afterFree curr clk inst [addr])
  | .beforeValloc curr clk inst size => some (instEntry sinfo .beforeValloc curr clk inst [size])
  | .afterValloc curr clk inst size addr => some (instEntry sinfo .afterValloc curr clk inst [size, addr])
  | .beforeCall .. | .afterCall .. | .beforeReturn .. | .afterReturn .. => none

end RecorderAnalyzer

/-- Whether the recorder writes an entry for a call. -/
def Hook.isRecorded : Hook Inst Image → Bool
  | .beforeCall .. | .afterCall .. | .beforeReturn .. | .afterReturn .. => false
  | _ => true

/-- The log of the recorder before, during and after the program. -/
inductive Recorder where
  | idle
  | writing (traceLog : LogWriter LogEntry)
  | closed (dir : LogDir LogEntry)

/-- `uid` is the time at which the log is opened. A hook outside the program has no log
to write to. -/
def Recorder.call (sinfo : StaticInfo Inst Image) (uid : ℕ) (r : Recorder) (h : Hook Inst Image) : Option Recorder :=
  match RecorderAnalyzer.entry sinfo h with
  | none => some r
  | some e =>
    match h, r with
    | .programStart, _ => some (.writing ((LogWriter.openForWrite uid).newEntry e))
    | .programExit, .writing traceLog => some (.closed (traceLog.newEntry e).closeForWrite)
    | _, .writing traceLog => some (.writing (traceLog.newEntry e))
    | _, _ => none

end Maple.Tracer
