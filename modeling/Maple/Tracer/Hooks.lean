import Maple.Core.BasicTypes

/-! The hooks of `core/analyzer.h`, and the entries of the trace log. The numbers have
the widths of the source: they are packed into 64 bits and narrowed again. -/
namespace Maple.Tracer

/-- `uint64`, `unsigned long` and `size_t`. -/
abbrev Word := BitVec 64

/-- Flags of an analyzer's descriptor that decide which hooks are called. -/
structure Descriptor where
  hookBeforeMem : Bool := false
  hookAfterMem : Bool := false
  hookAtomicInst : Bool := false
  hookPthreadFunc : Bool := false
  hookMallocFunc : Bool := false
  hookMainFunc : Bool := false
  hookCallReturn : Bool := false
  hookSyscall : Bool := false
  hookSignal : Bool := false

/-- The images and instructions of a static info, which finds them by their identifiers. -/
structure StaticInfo (Inst Image : Type) where
  imageId : Image → BitVec 32
  findImage : BitVec 32 → Option Image
  instId : Inst → BitVec 32
  findInst : BitVec 32 → Option Inst
  image_found : ∀ image, findImage (imageId image) = some image
  inst_found : ∀ inst, findInst (instId inst) = some inst

/-- A call of a hook with its arguments. -/
inductive Hook (Inst Image : Type) where
  | programStart
  | programExit
  | imageLoad (image : Image) (lowAddr highAddr dataStart dataSize bssStart bssSize : Word)
  | imageUnload (image : Image) (lowAddr highAddr dataStart dataSize bssStart bssSize : Word)
  | syscallEntry (curr clk : Word) (syscallNum : BitVec 32)
  | syscallExit (curr clk : Word) (syscallNum : BitVec 32)
  | signalReceived (curr clk : Word) (signalNum : BitVec 32)
  | threadStart (curr parent : Word)
  | threadExit (curr clk : Word)
  | main (curr clk : Word)
  | threadMain (curr clk : Word)
  | beforeMemRead (curr clk : Word) (inst : Inst) (addr size : Word)
  | afterMemRead (curr clk : Word) (inst : Inst) (addr size : Word)
  | beforeMemWrite (curr clk : Word) (inst : Inst) (addr size : Word)
  | afterMemWrite (curr clk : Word) (inst : Inst) (addr size : Word)
  | beforeAtomicInst (curr clk : Word) (inst : Inst) (type : String) (addr : Word)
  | afterAtomicInst (curr clk : Word) (inst : Inst) (type : String) (addr : Word)
  | beforeCall (curr clk : Word) (inst : Inst) (target : Word)
  | afterCall (curr clk : Word) (inst : Inst) (target ret : Word)
  | beforeReturn (curr clk : Word) (inst : Inst) (target : Word)
  | afterReturn (curr clk : Word) (inst : Inst) (target : Word)
  | beforePthreadCreate (curr clk : Word) (inst : Inst)
  | afterPthreadCreate (curr clk : Word) (inst : Inst) (child : Word)
  | beforePthreadJoin (curr clk : Word) (inst : Inst) (child : Word)
  | afterPthreadJoin (curr clk : Word) (inst : Inst) (child : Word)
  | beforePthreadMutexTryLock (curr clk : Word) (inst : Inst) (addr : Word)
  | afterPthreadMutexTryLock (curr clk : Word) (inst : Inst) (addr : Word) (retVal : BitVec 32)
  | beforePthreadMutexLock (curr clk : Word) (inst : Inst) (addr : Word)
  | afterPthreadMutexLock (curr clk : Word) (inst : Inst) (addr : Word)
  | beforePthreadMutexUnlock (curr clk : Word) (inst : Inst) (addr : Word)
  | afterPthreadMutexUnlock (curr clk : Word) (inst : Inst) (addr : Word)
  | beforePthreadCondSignal (curr clk : Word) (inst : Inst) (addr : Word)
  | afterPthreadCondSignal (curr clk : Word) (inst : Inst) (addr : Word)
  | beforePthreadCondBroadcast (curr clk : Word) (inst : Inst) (addr : Word)
  | afterPthreadCondBroadcast (curr clk : Word) (inst : Inst) (addr : Word)
  | beforePthreadCondWait (curr clk : Word) (inst : Inst) (condAddr mutexAddr : Word)
  | afterPthreadCondWait (curr clk : Word) (inst : Inst) (condAddr mutexAddr : Word)
  | beforePthreadCondTimedwait (curr clk : Word) (inst : Inst) (condAddr mutexAddr : Word)
  | afterPthreadCondTimedwait (curr clk : Word) (inst : Inst) (condAddr mutexAddr : Word)
  | beforePthreadBarrierInit (curr clk : Word) (inst : Inst) (addr : Word) (count : BitVec 32)
  | afterPthreadBarrierInit (curr clk : Word) (inst : Inst) (addr : Word) (count : BitVec 32)
  | beforePthreadBarrierWait (curr clk : Word) (inst : Inst) (addr : Word)
  | afterPthreadBarrierWait (curr clk : Word) (inst : Inst) (addr : Word)
  | beforeMalloc (curr clk : Word) (inst : Inst) (size : Word)
  | afterMalloc (curr clk : Word) (inst : Inst) (size addr : Word)
  | beforeCalloc (curr clk : Word) (inst : Inst) (nmemb size : Word)
  | afterCalloc (curr clk : Word) (inst : Inst) (nmemb size addr : Word)
  | beforeRealloc (curr clk : Word) (inst : Inst) (oriAddr size : Word)
  | afterRealloc (curr clk : Word) (inst : Inst) (oriAddr size newAddr : Word)
  | beforeFree (curr clk : Word) (inst : Inst) (addr : Word)
  | afterFree (curr clk : Word) (inst : Inst) (addr : Word)
  | beforeValloc (curr clk : Word) (inst : Inst) (size : Word)
  | afterValloc (curr clk : Word) (inst : Inst) (size addr : Word)

variable {Inst Image : Type}

/-- The event class of a hook. -/
def Hook.hookedBy : Hook Inst Image → Descriptor → Bool
  | .programStart | .programExit | .imageLoad .. | .imageUnload .. | .threadStart .. | .threadExit .. =>
    fun _ => true
  | .syscallEntry .. | .syscallExit .. => Descriptor.hookSyscall
  | .signalReceived .. => Descriptor.hookSignal
  | .main .. | .threadMain .. => Descriptor.hookMainFunc
  | .beforeMemRead .. | .beforeMemWrite .. => Descriptor.hookBeforeMem
  | .afterMemRead .. | .afterMemWrite .. => Descriptor.hookAfterMem
  | .beforeAtomicInst .. | .afterAtomicInst .. => Descriptor.hookAtomicInst
  | .beforeCall .. | .afterCall .. | .beforeReturn .. | .afterReturn .. => Descriptor.hookCallReturn
  | .beforePthreadCreate .. | .afterPthreadCreate .. | .beforePthreadJoin .. | .afterPthreadJoin ..
  | .beforePthreadMutexTryLock .. | .afterPthreadMutexTryLock .. | .beforePthreadMutexLock ..
  | .afterPthreadMutexLock .. | .beforePthreadMutexUnlock .. | .afterPthreadMutexUnlock ..
  | .beforePthreadCondSignal .. | .afterPthreadCondSignal .. | .beforePthreadCondBroadcast ..
  | .afterPthreadCondBroadcast .. | .beforePthreadCondWait .. | .afterPthreadCondWait ..
  | .beforePthreadCondTimedwait .. | .afterPthreadCondTimedwait .. | .beforePthreadBarrierInit ..
  | .afterPthreadBarrierInit .. | .beforePthreadBarrierWait .. | .afterPthreadBarrierWait .. =>
    Descriptor.hookPthreadFunc
  | .beforeMalloc .. | .afterMalloc .. | .beforeCalloc .. | .afterCalloc .. | .beforeRealloc ..
  | .afterRealloc .. | .beforeFree .. | .afterFree .. | .beforeValloc .. | .afterValloc .. => Descriptor.hookMallocFunc

inductive LogEntryType where
  | programStart | programExit | imageLoad | imageUnload | syscallEntry | syscallExit | signalReceived
  | threadStart | threadExit | main | threadMain | beforeMemRead | afterMemRead | beforeMemWrite
  | afterMemWrite | beforeAtomicInst | afterAtomicInst | beforePthreadCreate | afterPthreadCreate
  | beforePthreadJoin | afterPthreadJoin | beforePthreadMutexTryLock | afterPthreadMutexTryLock
  | beforePthreadMutexLock | afterPthreadMutexLock | beforePthreadMutexUnlock | afterPthreadMutexUnlock
  | beforePthreadCondSignal | afterPthreadCondSignal | beforePthreadCondBroadcast | afterPthreadCondBroadcast
  | beforePthreadCondWait | afterPthreadCondWait | beforePthreadCondTimedwait | afterPthreadCondTimedwait
  | beforePthreadBarrierInit | afterPthreadBarrierInit | beforePthreadBarrierWait | afterPthreadBarrierWait
  | beforeMalloc | afterMalloc | beforeCalloc | afterCalloc | beforeRealloc | afterRealloc | beforeFree
  | afterFree | beforeValloc | afterValloc

/-- `LogEntryProto`. -/
structure LogEntry where
  type : LogEntryType
  thdIdField : Option Word := none
  thdClkField : Option Word := none
  instIdField : Option (BitVec 32) := none
  args : List Word := []
  strArgs : List String := []

namespace LogEntry

/-- `INVALID_THD_ID` when the field is missing. -/
def thdId (e : LogEntry) : Word := e.thdIdField.getD (-1)

def thdClk (e : LogEntry) : Word := e.thdClkField.getD 0

/-- `INVALID_INST_ID` when the field is missing. -/
def instId (e : LogEntry) : BitVec 32 := e.instIdField.getD (-1)

def arg (e : LogEntry) (index : ℕ) : Word := e.args[index]?.getD 0

def strArg (e : LogEntry) (index : ℕ) : String := e.strArgs[index]?.getD ""

end LogEntry
end Maple.Tracer
