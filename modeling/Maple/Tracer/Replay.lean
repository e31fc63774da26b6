import Maple.Tracer.Loader
import Maple.Tracer.LogWrap

/-! What the recorder writes, the loader reads back: an analyzer sees the recorded calls as
it would have seen them while the program ran. -/
namespace Maple.Tracer
variable {Inst Image S : Type}

section Events
variable (sinfo : StaticInfo Inst Image)

open Loader RecorderAnalyzer

/-- A signed number is extended with its sign, and narrowed again. -/
theorem setWidth_signExtend (n : BitVec 32) : (n.signExtend 64).setWidth 32 = n := by
  apply BitVec.eq_of_getLsbD_eq
  intro i below
  have inside : i < 64 := Nat.lt_trans below (by decide)
  rw [BitVec.getLsbD_setWidth, BitVec.getLsbD_signExtend]
  simp only [below, inside, decide_true, Bool.true_and, if_true]

theorem onImage_entry (type : LogEntryType) (image : Image) (args : List Word) (hook : Image → Hook Inst Image) :
    onImage sinfo { type, args := (sinfo.imageId image).setWidth 64 :: args } hook = some ⟨always, hook image⟩ := by
  have found := sinfo.image_found image
  simp [onImage, LogEntry.arg, found]

theorem onInst_entry (type : LogEntryType) (curr clk : Word) (inst : Inst) (args : List Word)
    (strArgs : List String) (guard : Descriptor → Bool) (hook : Word → Word → Inst → Hook Inst Image) :
    onInst sinfo ⟨type, some curr, some clk, some (sinfo.instId inst), args, strArgs⟩ guard hook =
      some ⟨guard, hook curr clk inst⟩ := by
  have found := sinfo.inst_found inst
  simp [onInst, LogEntry.instId, LogEntry.thdId, LogEntry.thdClk, found]

theorem isSome_entry (h : Hook Inst Image) : (entry sinfo h).isSome = h.isRecorded := by
  cases h <;> rfl

/-- Every entry is turned back into the call that wrote it, for the analyzers of its class. -/
theorem handleEvent_entry {h : Hook Inst Image} {e : LogEntry} (recorded : entry sinfo h = some e) :
    handleEvent sinfo e = some ⟨h.hookedBy, h⟩ := by
  cases h with
  | beforeCall | afterCall | beforeReturn | afterReturn => cases recorded
  | programStart | programExit | threadStart | threadExit | main | threadMain =>
    cases recorded
    rfl
  | imageLoad | imageUnload =>
    cases recorded
    exact onImage_entry sinfo _ _ _ _
  | syscallEntry | syscallExit | signalReceived =>
    cases recorded
    simp [handleEvent, threadEntry, LogEntry.arg, LogEntry.thdId, LogEntry.thdClk, Hook.hookedBy,
      setWidth_signExtend]
  | _ =>
    cases recorded
    simp [handleEvent, instEntry, onInst_entry, LogEntry.arg, LogEntry.strArg, Hook.hookedBy,
      setWidth_signExtend]

end Events

section Loop
variable {sinfo : StaticInfo Inst Image} {h : Hook Inst Image} {calls : List (Hook Inst Image)}
  {analyzers : List (Analyzer Inst Image S)}

/-- A call that is made on the analyzers of its class advances every analyzer. -/
theorem dispatch_online (h : Hook Inst Image) (rest : List (Hook Inst Image)) :
    (Loader.dispatch analyzers ⟨h.hookedBy, h⟩).map (·.online rest) = analyzers.map (·.online (h :: rest)) := by
  simp only [Loader.dispatch, List.map_map]
  apply List.map_congr_left
  intro a _
  rfl

/-- The loop makes the calls of the unread entries, then it ends. -/
theorem eventLoop_stands {uid taken : ℕ} {ready : Bool} {chunks : List (List LogEntry)} {r : LogReader LogEntry}
    (stands : Stands uid chunks r (calls.filterMap (RecorderAnalyzer.entry sinfo)) taken ready) :
    Loader.eventLoop sinfo ((calls.filterMap (RecorderAnalyzer.entry sinfo)).length + 1) r analyzers =
      some (analyzers.map (·.online (calls.filter Hook.isRecorded))) := by
  induction calls generalizing r taken ready analyzers with
  | nil =>
    obtain ⟨r', asked, -⟩ := stands.hasNextEntry_end
    simp [Loader.eventLoop, asked, Analyzer.online]
  | cons h rest ih =>
    have recorded := isSome_entry sinfo h
    cases written : RecorderAnalyzer.entry sinfo h with
    | none =>
      rw [written, Option.isSome_none] at recorded
      rw [List.filterMap_cons_none written] at stands ⊢
      rw [List.filter_cons_of_neg (by simp [← recorded])]
      exact ih stands
    | some e =>
      rw [written, Option.isSome_some] at recorded
      rw [List.filterMap_cons_some written] at stands ⊢
      rw [List.filter_cons_of_pos recorded.symm]
      obtain ⟨asked, more, stands⟩ := stands.hasNextEntry_more (List.cons_ne_nil _ _)
      obtain ⟨taken, next, stands⟩ := stands.nextEntry
      have later : Loader.eventLoop sinfo _ taken (Loader.dispatch analyzers ⟨h.hookedBy, h⟩) = _ := ih stands
      rw [dispatch_online] at later
      rw [List.length_cons, Loader.eventLoop]
      simp only [more, next, handleEvent_entry sinfo written, Option.bind_eq_bind, Option.bind_some, if_true]
      exact later

/-- The bound on the rounds decides only whether the loop ends. -/
theorem eventLoop_agree {m n : ℕ} {r : LogReader LogEntry} {a b : List (Analyzer Inst Image S)}
    (first : Loader.eventLoop sinfo m r analyzers = some a) (second : Loader.eventLoop sinfo n r analyzers = some b) :
    a = b := by
  induction m generalizing n r analyzers with
  | zero => cases first
  | succ m ih =>
    cases n with
    | zero => cases second
    | succ n =>
      obtain ⟨⟨asked, more⟩, isAsked, first⟩ := Option.bind_eq_some_iff.mp first
      obtain ⟨⟨asked', more'⟩, isAsked', second⟩ := Option.bind_eq_some_iff.mp second
      obtain ⟨rfl, rfl⟩ := Prod.mk.inj (Option.some.inj (isAsked.symm.trans isAsked'))
      cases more with
      | false => exact Option.some.inj (first.symm.trans second)
      | true =>
        obtain ⟨⟨taken, e⟩, isTaken, first⟩ := Option.bind_eq_some_iff.mp first
        obtain ⟨⟨taken', e'⟩, isTaken', second⟩ := Option.bind_eq_some_iff.mp second
        obtain ⟨rfl, rfl⟩ := Prod.mk.inj (Option.some.inj (isTaken.symm.trans isTaken'))
        obtain ⟨d, handled, first⟩ := Option.bind_eq_some_iff.mp first
        obtain ⟨d', handled', second⟩ := Option.bind_eq_some_iff.mp second
        obtain rfl := Option.some.inj (handled.symm.trans handled')
        exact ih first second

/-- A log whose slices wrap around has no end. -/
theorem eventLoop_wrapped (rounds : ℕ) {r : LogReader LogEntry} (wrapped : Wrapped r.dir) :
    Loader.eventLoop sinfo rounds r analyzers = none := by
  induction rounds generalizing r analyzers with
  | zero => rfl
  | succ rounds ih =>
    obtain ⟨asked, more, same⟩ := wrapped.hasNextEntry
    simp only [Loader.eventLoop, more, Option.bind_eq_bind, Option.bind_some, if_true]
    cases next : asked.nextEntry with
    | none => rfl
    | some result =>
      have dir := (dir_nextEntry next).trans same
      simp only [Option.bind_some]
      cases Loader.handleEvent sinfo result.2 with
      | none => rfl
      | some d => exact ih (dir ▸ wrapped)

end Loop

/-- The calls of one execution of a program. -/
def session (middle : List (Hook Inst Image)) : List (Hook Inst Image) :=
  .programStart :: middle ++ [.programExit]

/-- Hooks that the recorder writes to the log it has opened. -/
def Inside (h : Hook Inst Image) : Prop := h ≠ .programStart ∧ h ≠ .programExit

theorem call_inside {sinfo : StaticInfo Inst Image} {uid : ℕ} {w : LogWriter LogEntry} {h : Hook Inst Image}
    (inside : Inside h) :
    Recorder.call sinfo uid (.writing w) h =
      some (.writing ((RecorderAnalyzer.entry sinfo h).toList.foldl LogWriter.newEntry w)) := by
  cases h with
  | programStart => exact absurd rfl inside.1
  | programExit => exact absurd rfl inside.2
  | _ => rfl

/-- The recorder leaves a log with one entry for each recorded call. -/
theorem record_session (sinfo : StaticInfo Inst Image) (uid : ℕ) {middle : List (Hook Inst Image)}
    (inside : ∀ h ∈ middle, Inside h) :
    (session middle).foldlM (Recorder.call sinfo uid) .idle =
      some (.closed (LogWriter.write uid ((session middle).filterMap (RecorderAnalyzer.entry sinfo)))) := by
  have written : ∀ w, middle.foldlM (Recorder.call sinfo uid) (.writing w) =
      some (.writing ((middle.filterMap (RecorderAnalyzer.entry sinfo)).foldl LogWriter.newEntry w)) := by
    induction middle with
    | nil => exact fun w => rfl
    | cons h rest ih =>
      intro w
      obtain ⟨first, others⟩ := List.forall_mem_cons.mp inside
      rw [List.foldlM_cons, call_inside first, List.filterMap_cons]
      cases RecorderAnalyzer.entry sinfo h with
      | none => exact ih others w
      | some e => exact ih others (w.newEntry e)
  simp only [session, List.cons_append, List.foldlM_cons, List.foldlM_append, Recorder.call, RecorderAnalyzer.entry,
    written, Option.bind_eq_bind, Option.bind_some, List.foldlM_nil, LogWriter.write, List.filterMap_cons,
    List.filterMap_append, List.filterMap_nil, List.foldl_cons, List.foldl_append, List.foldl_nil, Option.pure_def]

/-- The recorder writes `calls` to a log, and one pass of the loader over it makes the
analyzers do what they would have done online on the calls `seen`; an analyzer that lists
its calls is one of them. -/
def ReplaysAs (sinfo : StaticInfo Inst Image) (uid : ℕ) (calls seen : List (Hook Inst Image))
    (analyzers : List (Analyzer Inst Image S)) : Prop :=
  ∃ dir rounds, calls.foldlM (Recorder.call sinfo uid) .idle = some (.closed dir) ∧
    Loader.pass sinfo rounds dir analyzers = some (analyzers.map (·.online seen))

/-- The analyzers do what they would have done online. -/
def Replays (sinfo : StaticInfo Inst Image) (uid : ℕ) (calls : List (Hook Inst Image))
    (analyzers : List (Analyzer Inst Image S)) : Prop :=
  ReplaysAs sinfo uid calls calls analyzers

/-- The analyzers do what they would have done online without the calls and returns of functions. -/
def ReplaysRecorded (sinfo : StaticInfo Inst Image) (uid : ℕ) (calls : List (Hook Inst Image))
    (analyzers : List (Analyzer Inst Image S)) : Prop :=
  ReplaysAs sinfo uid calls (calls.filter Hook.isRecorded) analyzers

/-- Calls that an analyzer does not hook can be left out. -/
theorem online_recorded {a : Analyzer Inst Image S} (unhooked : a.desc.hookCallReturn = false)
    (calls : List (Hook Inst Image)) : a.online (calls.filter Hook.isRecorded) = a.online calls := by
  induction calls generalizing a with
  | nil => rfl
  | cons h rest ih =>
    cases recorded : h.isRecorded with
    | true =>
      rw [List.filter_cons_of_pos recorded]
      apply ih (a := if h.hookedBy a.desc then a.call h else a)
      split <;> exact unhooked
    | false =>
      have passed : h.hookedBy a.desc = false := by
        cases h <;> first | exact unhooked | cases recorded
      rw [List.filter_cons_of_neg (by simp [recorded]), ih unhooked]
      simp only [Analyzer.online, List.foldl_cons, passed, Bool.false_eq_true, if_false]

section Replays
variable (sinfo : StaticInfo Inst Image) (uid : ℕ) {middle seen : List (Hook Inst Image)}

/-- The recorder writes as many entries as there are recorded calls. -/
theorem length_entries (calls : List (Hook Inst Image)) :
    (calls.filterMap (RecorderAnalyzer.entry sinfo)).length = calls.countP Hook.isRecorded := by
  rw [List.length_filterMap_eq_countP]
  exact List.countP_congr fun h _ => by rw [isSome_entry]

theorem replaysRecorded_of_fits (inside : ∀ h ∈ middle, Inside h) (analyzers : List (Analyzer Inst Image S))
    (fits : (session middle).countP Hook.isRecorded ≤ logCapacity) :
    ReplaysRecorded sinfo uid (session middle) analyzers := by
  rw [← length_entries sinfo] at fits
  obtain ⟨chunks, r, opened, stands⟩ := stands_open uid fits
  exact ⟨_, _, record_session sinfo uid inside,
    Option.bind_eq_some_iff.mpr ⟨r, opened, eventLoop_stands stands⟩⟩

theorem not_replaysAs_of_many (inside : ∀ h ∈ middle, Inside h) (analyzers : List (Analyzer Inst Image S))
    (many : logCapacity < (session middle).countP Hook.isRecorded) :
    ¬ ReplaysAs sinfo uid (session middle) seen analyzers := by
  rintro ⟨dir, rounds, same, passed⟩
  cases (record_session sinfo uid inside).symm.trans same
  obtain ⟨r, opened, looped⟩ := Option.bind_eq_some_iff.mp passed
  rw [← length_entries sinfo] at many
  have wrapped := wrapped_write uid many
  rw [← dir_openForRead opened] at wrapped
  rw [eventLoop_wrapped rounds wrapped] at looped
  cases looped

/-- A recorded execution has one replay. -/
theorem ReplaysAs.agree {calls first second : List (Hook Inst Image)} {analyzers : List (Analyzer Inst Image S)}
    (one : ReplaysAs sinfo uid calls first analyzers) (other : ReplaysAs sinfo uid calls second analyzers) :
    analyzers.map (·.online first) = analyzers.map (·.online second) := by
  obtain ⟨dir, m, recorded, passed⟩ := one
  obtain ⟨dir', n, recorded', passed'⟩ := other
  cases recorded.symm.trans recorded'
  obtain ⟨r, opened, looped⟩ := Option.bind_eq_some_iff.mp passed
  obtain ⟨r', opened', looped'⟩ := Option.bind_eq_some_iff.mp passed'
  cases opened.symm.trans opened'
  exact eventLoop_agree looped looped'

/-- The recorded calls are replayed exactly if the slices of the log can be numbered;
without analyzers of function calls that is the whole execution. -/
theorem replays_iff (inside : ∀ h ∈ middle, Inside h) (analyzers : List (Analyzer Inst Image S)) :
    (ReplaysRecorded sinfo uid (session middle) analyzers ↔
      (session middle).countP Hook.isRecorded ≤ logCapacity) ∧
    ((∀ a ∈ analyzers, a.desc.hookCallReturn = false) →
      (Replays sinfo uid (session middle) analyzers ↔
        (session middle).countP Hook.isRecorded ≤ logCapacity)) := by
  have numbered : ReplaysRecorded sinfo uid (session middle) analyzers ↔
      (session middle).countP Hook.isRecorded ≤ logCapacity := by
    constructor
    · intro replays
      by_contra many
      exact not_replaysAs_of_many sinfo uid inside analyzers (Nat.lt_of_not_le many) replays
    · exact replaysRecorded_of_fits sinfo uid inside analyzers
  refine ⟨numbered, fun unhooked => ?_⟩
  have same : analyzers.map (·.online ((session middle).filter Hook.isRecorded)) =
      analyzers.map (·.online (session middle)) :=
    List.map_congr_left fun a member => online_recorded (unhooked a member) _
  rw [← numbered, Replays, ReplaysRecorded, ReplaysAs, ReplaysAs, same]

end Replays

/-- The analyzer that lists its calls. -/
def lister (Inst Image : Type) (desc : Descriptor) : Analyzer Inst Image (List (Hook Inst Image)) where
  desc
  state := []
  onHook listed h := listed ++ [h]

/-- The calls on an analyzer are those of the classes that its descriptor hooks, in order. -/
theorem online_lister (desc : Descriptor) (calls : List (Hook Inst Image)) :
    ((lister Inst Image desc).online calls).state = calls.filter (·.hookedBy desc) := by
  have listed : ∀ before, (Analyzer.online { lister Inst Image desc with state := before } calls).state =
      before ++ calls.filter (·.hookedBy desc) := by
    induction calls with
    | nil => exact fun before => (List.append_nil before).symm
    | cons h rest ih =>
      intro before
      rw [List.filter_cons]
      split
      · next hooked =>
        have later := ih (before ++ [h])
        rw [List.append_assoc, List.singleton_append] at later
        rw [← later]
        simp only [Analyzer.online, List.foldl_cons, lister, hooked, if_true]
        rfl
      · next other =>
        rw [← ih before]
        simp only [Analyzer.online, List.foldl_cons, lister, other, Bool.false_eq_true, if_false]
  exact listed []

/-- One image and one instruction. -/
def oneInst : StaticInfo Unit Unit where
  imageId _ := 1
  findImage id := if id = 1 then some () else none
  instId _ := 1
  findInst id := if id = 1 then some () else none
  image_found _ := rfl
  inst_found _ := rfl

/-- A function is called that fails to lock a mutex. -/
def tryLock : List (Hook Unit Unit) :=
  [.threadStart 0 (-1), .beforeCall 0 2 () 512, .afterPthreadMutexTryLock 0 3 () 64 (-1)]

theorem replays_iff_tryLock :
    let analyzers := [lister Unit Unit { hookPthreadFunc := true }, lister Unit Unit {}]
    ReplaysRecorded oneInst 7 (session tryLock) analyzers ∧ Replays oneInst 7 (session tryLock) analyzers := by
  have inside : ∀ h ∈ tryLock, Inside h := by simp [tryLock, Inside]
  have fits : (session tryLock).countP Hook.isRecorded ≤ logCapacity := by
    refine List.countP_le_length.trans (Nat.le_trans ?_ sliceNos_le_logCapacity)
    simp [session, tryLock, sliceNos]
  obtain ⟨recorded, whole⟩ := replays_iff oneInst 7 inside
    [lister Unit Unit { hookPthreadFunc := true }, lister Unit Unit {}]
  exact ⟨recorded.mpr fits, (whole (by simp [lister])).mpr fits⟩

/-- A function is called. -/
def oneCall : List (Hook Unit Unit) := [.beforeCall 0 2 () 512]

/-- An analyzer of function calls does not see them in a replay, and an execution can have
more calls than a log can hold. -/
theorem not_replays_calls_threadExits :
    ¬ Replays oneInst 7 (session oneCall) [lister Unit Unit { hookCallReturn := true }] ∧
    ¬ Replays oneInst 7 (session (List.replicate logCapacity (.threadExit 0 0))) [lister Unit Unit {}] := by
  constructor
  · intro replays
    have fits : (session oneCall).countP Hook.isRecorded ≤ logCapacity := by
      refine List.countP_le_length.trans (Nat.le_trans ?_ sliceNos_le_logCapacity)
      simp [session, oneCall, sliceNos]
    have recorded := replaysRecorded_of_fits oneInst 7 (by simp [oneCall, Inside])
      [lister Unit Unit { hookCallReturn := true }] fits
    have same := ReplaysAs.agree oneInst 7 replays recorded
    have states := congrArg (List.map (·.state)) same
    simp [session, oneCall, online_lister, Hook.isRecorded, Hook.hookedBy] at states
  · apply not_replaysAs_of_many
    · intro h member
      rw [List.eq_of_mem_replicate member]
      simp [Inside]
    · rw [session, List.cons_append, List.countP_cons, List.countP_append, List.countP_replicate]
      exact Nat.lt_succ_of_le (Nat.le_add_right _ _)

end Maple.Tracer
