import Maple.Tracer.Recorder

/-! `tracer/loader.cc`: every entry of a log is turned back into the call of a hook, on
the analyzers whose descriptors ask for it. -/
namespace Maple.Tracer
variable {Inst Image : Type}

/-- A call on the analyzers that pass the guard, which `CALL_ANALYSIS_FUNC` leaves out. -/
structure Dispatch (Inst Image : Type) where
  guard : Descriptor → Bool
  hook : Hook Inst Image

namespace Loader

def always : Descriptor → Bool := fun _ => true

def onImage (sinfo : StaticInfo Inst Image) (e : LogEntry) (hook : Image → Hook Inst Image) :
    Option (Dispatch Inst Image) := do
  let image ← sinfo.findImage ((e.arg 0).setWidth 32)
  return ⟨always, hook image⟩

def onInst (sinfo : StaticInfo Inst Image) (e : LogEntry) (guard : Descriptor → Bool)
    (hook : Word → Word → Inst → Hook Inst Image) : Option (Dispatch Inst Image) := do
  let inst ← sinfo.findInst e.instId
  return ⟨guard, hook e.thdId e.thdClk inst⟩

/-- The handlers look up what an entry names; nothing found is a failed assertion. -/
def handleEvent (sinfo : StaticInfo Inst Image) (e : LogEntry) : Option (Dispatch Inst Image) :=
  match e.type with
  | .programStart => some ⟨always, .programStart⟩
  | .programExit => some ⟨always, .programExit⟩
  | .imageLoad => onImage sinfo e fun image =>
    .imageLoad image (e.arg 1) (e.arg 2) (e.arg 3) (e.arg 4) (e.arg 5) (e.arg 6)
  | .imageUnload => onImage sinfo e fun image =>
    .imageUnload image (e.arg 1) (e.arg 2) (e.arg 3) (e.arg 4) (e.arg 5) (e.arg 6)
  | .syscallEntry => some ⟨Descriptor.hookSyscall, .syscallEntry e.thdId e.thdClk ((e.arg 0).setWidth 32)⟩
  | .syscallExit => some ⟨Descriptor.hookSyscall, .syscallExit e.thdId e.thdClk ((e.arg 0).setWidth 32)⟩
  | .signalReceived => some ⟨Descriptor.hookSignal, .signalReceived e.thdId e.thdClk ((e.arg 0).setWidth 32)⟩
  | .threadStart => some ⟨always, .threadStart e.thdId (e.arg 0)⟩
  | .threadExit => some ⟨always, .threadExit e.thdId e.thdClk⟩
  | .main => some ⟨Descriptor.hookMainFunc, .main e.thdId e.thdClk⟩
  | .threadMain => some ⟨Descriptor.hookMainFunc, .threadMain e.thdId e.thdClk⟩
  | .beforeMemRead =>
    onInst sinfo e Descriptor.hookBeforeMem fun self clk inst => .beforeMemRead self clk inst (e.arg 0) (e.arg 1)
  | .afterMemRead =>
    onInst sinfo e Descriptor.hookAfterMem fun self clk inst => .afterMemRead self clk inst (e.arg 0) (e.arg 1)
  | .beforeMemWrite =>
    onInst sinfo e Descriptor.hookBeforeMem fun self clk inst => .beforeMemWrite self clk inst (e.arg 0) (e.arg 1)
  | .afterMemWrite =>
    onInst sinfo e Descriptor.hookAfterMem fun self clk inst => .afterMemWrite self clk inst (e.arg 0) (e.arg 1)
  | .beforeAtomicInst =>
    onInst sinfo e Descriptor.hookAtomicInst fun self clk inst => .beforeAtomicInst self clk inst (e.strArg 0) (e.arg 0)
  | .afterAtomicInst =>
    onInst sinfo e Descriptor.hookAtomicInst fun self clk inst => .afterAtomicInst self clk inst (e.strArg 0) (e.arg 0)
  | .beforePthreadCreate =>
    onInst sinfo e Descriptor.hookPthreadFunc fun self clk inst => .beforePthreadCreate self clk inst
  | .afterPthreadCreate =>
    onInst sinfo e Descriptor.hookPthreadFunc fun self clk inst => .afterPthreadCreate self clk inst (e.arg 0)
  | .beforePthreadJoin =>
    onInst sinfo e Descriptor.hookPthreadFunc fun self clk inst => .beforePthreadJoin self clk inst (e.arg 0)
  | .afterPthreadJoin =>
    onInst sinfo e Descriptor.hookPthreadFunc fun self clk inst => .afterPthreadJoin self clk inst (e.arg 0)
  | .beforePthreadMutexTryLock =>
    onInst sinfo e Descriptor.hookPthreadFunc fun self clk inst => .beforePthreadMutexTryLock self clk inst (e.arg 0)
  | .afterPthreadMutexTryLock =>
    onInst sinfo e Descriptor.hookPthreadFunc fun self clk inst =>
      .afterPthreadMutexTryLock self clk inst (e.arg 0) ((e.arg 1).setWidth 32)
  | .beforePthreadMutexLock =>
    onInst sinfo e Descriptor.hookPthreadFunc fun self clk inst => .beforePthreadMutexLock self clk inst (e.arg 0)
  | .afterPthreadMutexLock =>
    onInst sinfo e Descriptor.hookPthreadFunc fun self clk inst => .afterPthreadMutexLock self clk inst (e.arg 0)
  | .beforePthreadMutexUnlock =>
    onInst sinfo e Descriptor.hookPthreadFunc fun self clk inst => .beforePthreadMutexUnlock self clk inst (e.arg 0)
  | .afterPthreadMutexUnlock =>
    onInst sinfo e Descriptor.hookPthreadFunc fun self clk inst => .afterPthreadMutexUnlock self clk inst (e.arg 0)
  | .beforePthreadCondSignal =>
    onInst sinfo e Descriptor.hookPthreadFunc fun self clk inst => .beforePthreadCondSignal self clk inst (e.arg 0)
  | .afterPthreadCondSignal =>
    onInst sinfo e Descriptor.hookPthreadFunc fun self clk inst => .afterPthreadCondSignal self clk inst (e.arg 0)
  | .beforePthreadCondBroadcast =>
    onInst sinfo e Descriptor.hookPthreadFunc fun self clk inst => .beforePthreadCondBroadcast self clk inst (e.arg 0)
  | .afterPthreadCondBroadcast =>
    onInst sinfo e Descriptor.hookPthreadFunc fun self clk inst => .afterPthreadCondBroadcast self clk inst (e.arg 0)
  | .beforePthreadCondWait =>
    onInst sinfo e Descriptor.hookPthreadFunc fun self clk inst =>
      .beforePthreadCondWait self clk inst (e.arg 0) (e.arg 1)
  | .afterPthreadCondWait =>
    onInst sinfo e Descriptor.hookPthreadFunc fun self clk inst =>
      .afterPthreadCondWait self clk inst (e.arg 0) (e.arg 1)
  | .beforePthreadCondTimedwait =>
    onInst sinfo e Descriptor.hookPthreadFunc fun self clk inst =>
      .beforePthreadCondTimedwait self clk inst (e.arg 0) (e.arg 1)
  | .afterPthreadCondTimedwait =>
    onInst sinfo e Descriptor.hookPthreadFunc fun self clk inst =>
      .afterPthreadCondTimedwait self clk inst (e.arg 0) (e.arg 1)
  | .beforePthreadBarrierInit =>
    onInst sinfo e Descriptor.hookPthreadFunc fun self clk inst =>
      .beforePthreadBarrierInit self clk inst (e.arg 0) ((e.arg 1).setWidth 32)
  | .afterPthreadBarrierInit =>
    onInst sinfo e Descriptor.hookPthreadFunc fun self clk inst =>
      .afterPthreadBarrierInit self clk inst (e.arg 0) ((e.arg 1).setWidth 32)
  | .beforePthreadBarrierWait =>
    onInst sinfo e Descriptor.hookPthreadFunc fun self clk inst => .beforePthreadBarrierWait self clk inst (e.arg 0)
  | .afterPthreadBarrierWait =>
    onInst sinfo e Descriptor.hookPthreadFunc fun self clk inst => .afterPthreadBarrierWait self clk inst (e.arg 0)
  | .beforeMalloc =>
    onInst sinfo e Descriptor.hookMallocFunc fun self clk inst => .beforeMalloc self clk inst (e.arg 0)
  | .afterMalloc =>
    onInst sinfo e Descriptor.hookMallocFunc fun self clk inst => .afterMalloc self clk inst (e.arg 0) (e.arg 1)
  | .beforeCalloc =>
    onInst sinfo e Descriptor.hookMallocFunc fun self clk inst => .beforeCalloc self clk inst (e.arg 0) (e.arg 1)
  | .afterCalloc =>
    onInst sinfo e Descriptor.hookMallocFunc fun self clk inst =>
      .afterCalloc self clk inst (e.arg 0) (e.arg 1) (e.arg 2)
  | .beforeRealloc =>
    onInst sinfo e Descriptor.hookMallocFunc fun self clk inst => .beforeRealloc self clk inst (e.arg 0) (e.arg 1)
  | .afterRealloc =>
    onInst sinfo e Descriptor.hookMallocFunc fun self clk inst =>
      .afterRealloc self clk inst (e.arg 0) (e.arg 1) (e.arg 2)
  | .beforeFree =>
    onInst sinfo e Descriptor.hookMallocFunc fun self clk inst => .beforeFree self clk inst (e.arg 0)
  | .afterFree => onInst sinfo e Descriptor.hookMallocFunc fun self clk inst => .afterFree self clk inst (e.arg 0)
  | .beforeValloc =>
    onInst sinfo e Descriptor.hookMallocFunc fun self clk inst => .beforeValloc self clk inst (e.arg 0)
  | .afterValloc =>
    onInst sinfo e Descriptor.hookMallocFunc fun self clk inst => .afterValloc self clk inst (e.arg 0) (e.arg 1)

end Loader

/-- An analyzer with its state `S`. -/
structure Analyzer (Inst Image S : Type) where
  desc : Descriptor
  state : S
  onHook : S → Hook Inst Image → S

namespace Analyzer
variable {S : Type}

def call (a : Analyzer Inst Image S) (h : Hook Inst Image) : Analyzer Inst Image S :=
  { a with state := a.onHook a.state h }

/-- While the program runs, an analyzer sees the hooks that its descriptor asks for. -/
def online (a : Analyzer Inst Image S) (calls : List (Hook Inst Image)) : Analyzer Inst Image S :=
  calls.foldl (fun a h => if h.hookedBy a.desc then a.call h else a) a

end Analyzer

namespace Loader
variable {S : Type}

def dispatch (analyzers : List (Analyzer Inst Image S)) (d : Dispatch Inst Image) : List (Analyzer Inst Image S) :=
  analyzers.map fun a => if d.guard a.desc then a.call d.hook else a

/-- `EventLoop`, with a bound on the number of rounds. -/
def eventLoop (sinfo : StaticInfo Inst Image) :
    ℕ → LogReader LogEntry → List (Analyzer Inst Image S) → Option (List (Analyzer Inst Image S))
  | 0, _, _ => none
  | rounds + 1, r, analyzers => do
    let (asked, more) ← r.hasNextEntry
    if more then
      let (taken, e) ← asked.nextEntry
      let d ← handleEvent sinfo e
      eventLoop sinfo rounds taken (dispatch analyzers d)
    else return analyzers

/-- One pass over the log, after which its buffers are cleared. -/
def pass (sinfo : StaticInfo Inst Image) (rounds : ℕ) (dir : LogDir LogEntry)
    (analyzers : List (Analyzer Inst Image S)) : Option (List (Analyzer Inst Image S)) := do
  let r ← LogReader.openForRead dir
  eventLoop sinfo rounds r analyzers

end Loader
end Maple.Tracer
