import Maple.Idiom.Observers

/-! Under non-recursive locking the two observers make the same calls. `ObserverNew` treats
every operation on a mutex as a write: while the mutex is free its last one is the unlock
that `Observer` keeps, and while it is held it is an operation of the holder. -/
namespace Maple.Idiom

/-! ### Tables of last accesses -/

/-- The access that a table holds valid for a thread. -/
def validAt (table : OrdMap ThreadId (Bool × ObserverAccess)) (t : ThreadId) : Option ObserverAccess :=
  table[t]?.bind fun last => if last.1 then some last.2 else none

theorem validOf_eq (table : OrdMap ThreadId (Bool × ObserverAccess)) (t : ThreadId) :
    validOf table t = (validAt table t).isSome := by
  unfold validOf validAt
  cases table[t]? with
  | none => rfl
  | some last =>
    obtain ⟨valid, acc⟩ := last
    cases valid <;> rfl

/-- What a table holds valid decides what its loop finds, in which order. -/
theorem validAccs_eq (table : OrdMap ThreadId (Bool × ObserverAccess)) :
    validAccs table =
      (table.filterMap fun _ last => if last.1 then some last.2 else none).toList := by
  rw [Std.ExtTreeMap.toList_filterMap, validAccs]
  congr 1
  funext entry
  cases entry.2.1 <;> rfl

theorem validAccs_congr {table table' : OrdMap ThreadId (Bool × ObserverAccess)}
    (same : ∀ t, validAt table t = validAt table' t) : validAccs table = validAccs table' := by
  rw [validAccs_eq, validAccs_eq]
  congr 1
  apply Std.ExtTreeMap.ext_getElem?
  intro t
  rw [Std.ExtTreeMap.getElem?_filterMap', Std.ExtTreeMap.getElem?_filterMap']
  exact same t

theorem mem_validAccs {table : OrdMap ThreadId (Bool × ObserverAccess)} {t : ThreadId} {acc : ObserverAccess} :
    (t, acc) ∈ validAccs table ↔ validAt table t = some acc := by
  rw [validAccs_eq, Std.ExtTreeMap.mem_toList_iff_getElem?_eq_some, Std.ExtTreeMap.getElem?_filterMap']
  rfl

theorem validAt_insert (table : OrdMap ThreadId (Bool × ObserverAccess)) (t u : ThreadId)
    (last : Bool × ObserverAccess) :
    validAt (table.insert t last) u = if t = u then (if last.1 then some last.2 else none) else validAt table u := by
  rw [validAt, getElem?_insert_thread]
  split
  · rfl
  · rfl

@[simp] theorem validAt_invalidateAll (table : OrdMap ThreadId (Bool × ObserverAccess)) (t : ThreadId) :
    validAt (invalidateAll table) t = none := by
  rw [validAt, invalidateAll, Std.ExtTreeMap.getElem?_map]
  cases table[t]? <;> rfl

@[simp] theorem validAt_empty (t : ThreadId) : validAt ∅ t = none := by simp [validAt]

theorem validAccs_nil {table : OrdMap ThreadId (Bool × ObserverAccess)} (none : ∀ t, validAt table t = none) :
    validAccs table = [] := by
  apply List.eq_nil_iff_forall_not_mem.mpr
  rintro ⟨t, acc⟩ member
  exact nomatch (none t).symm.trans (mem_validAccs.mp member)

/-! ### Entries -/

/-- The meta data of a memory unit hold the same writer and the same valid readers. -/
structure MemAgrees (m : ObserverMemMeta) (m' : Meta) : Prop where
  type : m'.type = .mem
  writer : m.lastWriter = m'.lastWriter
  readers : ∀ t, validAt m.lastReaders t = validAt m'.lastAccTable t
  owned : ∀ t acc, validAt m.lastReaders t = some acc → acc.thdId = t

/-- The last operation on a free mutex is the kept unlock; on a held one it is the holder's. -/
structure MutexAgrees (holder : Option ThreadId) (m : ObserverMutexMeta) (m' : Meta) : Prop where
  type : m'.type = .mutex
  readers : ∀ t, validAt m'.lastAccTable t = none
  free : holder = none → m.lastUnlocker = m'.lastWriter
  held : ∀ t acc, holder = some t → m'.lastWriter = some acc → acc.thdId = t

inductive EntryAgrees (holder : Option ThreadId) : Option ObserverMeta → Option Meta → Prop
  | absent : EntryAgrees holder none none
  | mem {m m'} (agrees : MemAgrees m m') : EntryAgrees holder (some (.mem m)) (some m')
  | mutex {m m'} (agrees : MutexAgrees holder m m') : EntryAgrees holder (some (.mutex m)) (some m')

theorem MemAgrees.fresh : MemAgrees {} { type := .mem } where
  type := rfl
  writer := rfl
  readers t := by simp
  owned t acc valid := by simp at valid

theorem MutexAgrees.fresh (holder : Option ThreadId) : MutexAgrees holder {} { type := .mutex } where
  type := rfl
  readers t := by simp
  free _ := rfl
  held t acc _ last := nomatch last

section Update
variable {m : ObserverMemMeta} {m' : Meta} {u : ObserverMutexMeta} {curr : ObserverAccess}

theorem MemAgrees.read (agrees : MemAgrees m m') (type : curr.type = .memRead) :
    MemAgrees (Observer.updateForRead curr m).1 (ObserverNew.processiRootEvent curr m').1 ∧
      (Observer.updateForRead curr m).2 = (ObserverNew.processiRootEvent curr m').2 := by
  simp only [Observer.updateForRead, ObserverNew.processiRootEvent, ObserverNew.isRead, type, decide_true, if_true]
  refine ⟨⟨agrees.type, agrees.writer, fun t => ?_, fun t acc valid => ?_⟩, ?_⟩
  · rw [validAt_insert, validAt_insert, agrees.readers]
  · rw [validAt_insert] at valid
    split at valid
    · next own =>
        cases valid
        exact own
    · exact agrees.owned t acc valid
  · rw [validOf_eq, validOf_eq, agrees.readers, agrees.writer]

theorem MemAgrees.write (agrees : MemAgrees m m') (type : curr.type = .memWrite) :
    MemAgrees (Observer.updateForWrite curr m).1 (ObserverNew.processiRootEvent curr m').1 ∧
      (Observer.updateForWrite curr m).2 = (ObserverNew.processiRootEvent curr m').2 := by
  simp only [Observer.updateForWrite, ObserverNew.processiRootEvent, ObserverNew.isRead, type, reduceCtorEq,
    decide_false, Bool.false_eq_true, if_false]
  refine ⟨⟨agrees.type, rfl, fun t => ?_, fun t acc valid => ?_⟩, ?_⟩
  · rw [validAt_invalidateAll, validAt_insert, validAt_invalidateAll]
    simp
  · simp at valid
  · -- the loops name the reading thread by the access or by its key in the table
    have named : (validAccs m.lastReaders).filter (fun reader => reader.2.thdId ≠ curr.thdId) =
        (validAccs m.lastReaders).filter (fun reader => reader.1 ≠ curr.thdId) := by
      apply List.filter_congr
      rintro ⟨t, acc⟩ member
      rw [agrees.owned t acc (mem_validAccs.mp member)]
    rw [named, validAccs_congr agrees.readers, agrees.writer]

/-- A mutex has no valid readers, so that its operations only look at the last one. -/
theorem process_mutex (readers : ∀ t, validAt m'.lastAccTable t = none) (write : curr.type ≠ .memRead) :
    ObserverNew.processiRootEvent curr m' =
      ({ m' with
          lastAccTable := (invalidateAll m'.lastAccTable).insert curr.thdId (false, curr)
          lastWriter := some curr }, remote m'.lastWriter curr.thdId) := by
  simp [ObserverNew.processiRootEvent, ObserverNew.isRead, write, validAccs_nil readers]

theorem MutexAgrees.after (agrees : MutexAgrees holder u m') {holder' : Option ThreadId} {u' : ObserverMutexMeta}
    (free : holder' = none → u'.lastUnlocker = some curr) (held : ∀ t, holder' = some t → curr.thdId = t) :
    MutexAgrees holder' u' { m' with
      lastAccTable := (invalidateAll m'.lastAccTable).insert curr.thdId (false, curr)
      lastWriter := some curr } where
  type := agrees.type
  readers t := by
    rw [validAt_insert, validAt_invalidateAll]
    simp
  free := free
  held t acc holds last := by
    cases last
    exact held t holds

theorem MutexAgrees.lock (agrees : MutexAgrees none u m') (type : curr.type = .mutexLock) :
    MutexAgrees (some curr.thdId) (Observer.updateForLock curr u).1 (ObserverNew.processiRootEvent curr m').1 ∧
      (Observer.updateForLock curr u).2 = (ObserverNew.processiRootEvent curr m').2 := by
  rw [process_mutex agrees.readers (by simp [type])]
  refine ⟨agrees.after nofun fun t own => Option.some.inj own, ?_⟩
  rw [Observer.updateForLock, agrees.free rfl]

theorem MutexAgrees.unlock (agrees : MutexAgrees (some curr.thdId) u m') (type : curr.type = .mutexUnlock) :
    MutexAgrees none (Observer.updateForUnlock curr u).1 (ObserverNew.processiRootEvent curr m').1 ∧
      (Observer.updateForUnlock curr u).2 = (ObserverNew.processiRootEvent curr m').2 := by
  rw [process_mutex agrees.readers (by simp [type])]
  refine ⟨agrees.after (fun _ => rfl) nofun, ?_⟩
  -- the last operation is the holder's own
  cases last : m'.lastWriter with
  | none => rfl
  | some acc =>
    have own := agrees.held _ acc rfl last
    simp [Observer.updateForUnlock, remote, own]

/-- What the two classes do to an entry, for the holder behind it. -/
def AgreeUpdate (holder : Option ThreadId) (curr : ObserverAccess) (entry : Option ObserverMeta)
    (entry' : Option Meta) : Prop :=
  EntryAgrees holder (Observer.update curr entry).1 (ObserverNew.update curr entry').1 ∧
    (Observer.update curr entry).2 = (ObserverNew.update curr entry').2

variable {holder : Option ThreadId} {entry : Option ObserverMeta} {entry' : Option Meta}

theorem EntryAgrees.read (agrees : EntryAgrees holder entry entry') (type : curr.type = .memRead) :
    AgreeUpdate holder curr entry entry' := by
  simp only [AgreeUpdate, Observer.update, ObserverNew.update, type]
  cases agrees with
  | absent =>
    obtain ⟨kept, preds⟩ := MemAgrees.fresh.read type
    exact ⟨.mem kept, preds⟩
  | mem agrees =>
    obtain ⟨kept, preds⟩ := agrees.read type
    simp only [Observer.getMemMeta, ObserverNew.getMemMeta, agrees.type]
    exact ⟨.mem kept, preds⟩
  | mutex agrees =>
    simp only [Observer.getMemMeta, ObserverNew.getMemMeta, agrees.type, and_true]
    exact .mutex agrees

theorem EntryAgrees.write (agrees : EntryAgrees holder entry entry') (type : curr.type = .memWrite) :
    AgreeUpdate holder curr entry entry' := by
  simp only [AgreeUpdate, Observer.update, ObserverNew.update, type]
  cases agrees with
  | absent =>
    obtain ⟨kept, preds⟩ := MemAgrees.fresh.write type
    exact ⟨.mem kept, preds⟩
  | mem agrees =>
    obtain ⟨kept, preds⟩ := agrees.write type
    simp only [Observer.getMemMeta, ObserverNew.getMemMeta, agrees.type]
    exact ⟨.mem kept, preds⟩
  | mutex agrees =>
    simp only [Observer.getMemMeta, ObserverNew.getMemMeta, agrees.type, and_true]
    exact .mutex agrees

/-- A memory unit turns into a mutex that nothing is known of. -/
theorem EntryAgrees.getMutexMeta (agrees : EntryAgrees holder entry entry') :
    MutexAgrees holder (Observer.getMutexMeta entry) (ObserverNew.getMutexMeta entry') := by
  cases agrees with
  | absent => exact .fresh holder
  | mem agrees =>
    simp only [Observer.getMutexMeta, ObserverNew.getMutexMeta, agrees.type]
    exact .fresh holder
  | mutex agrees =>
    simp only [Observer.getMutexMeta, ObserverNew.getMutexMeta, agrees.type]
    exact agrees

theorem EntryAgrees.lock (agrees : EntryAgrees none entry entry') (curr : ObserverAccess)
    (type : curr.type = .mutexLock) :
    AgreeUpdate (some curr.thdId) curr entry entry' := by
  obtain ⟨kept, preds⟩ := agrees.getMutexMeta.lock type
  simp only [AgreeUpdate, Observer.update, ObserverNew.update, type]
  exact ⟨.mutex kept, preds⟩

theorem EntryAgrees.unlock (agrees : EntryAgrees (some curr.thdId) entry entry')
    (type : curr.type = .mutexUnlock) :
    AgreeUpdate none curr entry entry' := by
  obtain ⟨kept, preds⟩ := agrees.getMutexMeta.unlock type
  simp only [AgreeUpdate, Observer.update, ObserverNew.update, type]
  exact ⟨.mutex kept, preds⟩

end Update

/-! ### The discipline of locking -/

/-- What a hook says about the holder of a mutex. -/
inductive LockOp where
  | lock (t : ThreadId) (mutex : Address)
  | unlock (t : ThreadId) (mutex : Address)

/-- The thread whose observed lock holds a mutex. -/
abbrev Holders := Address → Option ThreadId

namespace LockOp

/-- No lock of a held mutex, and no unlock but by the holder. -/
def Allowed (holders : Holders) : LockOp → Prop
  | lock _ mutex => holders mutex = none
  | unlock t mutex => holders mutex = some t

instance (holders : Holders) : (op : LockOp) → Decidable (op.Allowed holders)
  | lock _ _ => inferInstanceAs (Decidable (_ = _))
  | unlock _ _ => inferInstanceAs (Decidable (_ = _))

def after (holders : Holders) : LockOp → Holders
  | lock t mutex => Function.update holders mutex (some t)
  | unlock _ mutex => Function.update holders mutex none

end LockOp

def ObserverHook.lockOp : ObserverHook → Option LockOp
  | .afterPthreadMutexLock curr _ _ addr
  | .afterPthreadCondWait curr _ _ _ addr
  | .afterPthreadCondTimedwait curr _ _ _ addr => some (.lock curr addr)
  | .beforePthreadMutexUnlock curr _ _ addr
  | .beforePthreadCondWait curr _ _ _ addr
  | .beforePthreadCondTimedwait curr _ _ _ addr => some (.unlock curr addr)
  | _ => none

def LocksConform : Holders → List ObserverHook → Prop
  | _, [] => True
  | holders, e :: rest => match e.lockOp with
    | none => LocksConform holders rest
    | some op => op.Allowed holders ∧ LocksConform (op.after holders) rest

instance decidableLocksConform :
    (holders : Holders) → (tr : List ObserverHook) → Decidable (LocksConform holders tr)
  | _, [] => .isTrue trivial
  | holders, e :: rest =>
    match h : e.lockOp with
    | none =>
      have := decidableLocksConform holders rest
      decidable_of_iff (LocksConform holders rest) (by simp [LocksConform, h])
    | some op =>
      have := decidableLocksConform (op.after holders) rest
      decidable_of_iff (op.Allowed holders ∧ LocksConform (op.after holders) rest) (by simp [LocksConform, h])

/-! ### States -/

theorem updateiRoots_alike {ptrs ptrs' : DbPointers} (shadow : Bool) (curr : ObserverAccess) {db db' : IRootDb}
    (alike : IRootDb.Alike ptrs ptrs' db db') (preds : List ObserverAccess) :
    IRootDb.Alike ptrs ptrs' (updateiRoots ptrs shadow curr preds db).1 (updateiRoots ptrs' shadow curr preds db').1 ∧
      (updateiRoots ptrs shadow curr preds db).2 = (updateiRoots ptrs' shadow curr preds db').2 := by
  induction preds generalizing db db' with
  | nil => exact ⟨alike, rfl⟩
  | cons pred rest ih =>
    obtain ⟨withPred, samePred⟩ := alike.getiRootEvent pred.inst pred.type
    obtain ⟨withCurr, sameCurr⟩ := withPred.getiRootEvent curr.inst curr.type
    simp only [updateiRoots, samePred, sameCurr]
    obtain ⟨withRoot, sameRoot⟩ := withCurr.getiRoot .idiom1
      [some (db'.getiRootEvent ptrs' pred.inst pred.type).2,
        some ((db'.getiRootEvent ptrs' pred.inst pred.type).1.getiRootEvent ptrs' curr.inst curr.type).2] rfl
    obtain ⟨last, later⟩ := ih withRoot
    exact ⟨last, by rw [sameRoot, later]⟩

structure Agree (ptrs ptrs' : DbPointers) (holders : Holders) (b : ObserverBase ObserverMeta)
    (b' : ObserverBase Meta) : Prop where
  unitSize : b.unitSize = b'.unitSize
  shadow : b.shadow = b'.shadow
  filter : b.filter = b'.filter
  irootDb : IRootDb.Alike ptrs ptrs' b.irootDb b'.irootDb
  entries : ∀ a : Address, EntryAgrees (holders a) b.metaTable[a]? b'.metaTable[a]?

theorem agree_iff_rel {ptrs ptrs' : DbPointers} {holders : Holders} {b : ObserverBase ObserverMeta}
    {b' : ObserverBase Meta} : Agree ptrs ptrs' holders b b' ↔
      ObserverBase.Rel (IRootDb.Alike ptrs ptrs') (fun a => EntryAgrees (holders a)) b b' := by
  constructor
  · rintro ⟨unitSize, shadow, filter, irootDb, entries⟩
    exact ⟨unitSize, shadow, filter, irootDb, entries⟩
  · rintro ⟨unitSize, shadow, filter, irootDb, entries⟩
    exact ⟨unitSize, shadow, filter, irootDb, entries⟩

/-- Both states and outputs of a step. -/
abbrev AgreeStep (ptrs ptrs' : DbPointers) (holders : Holders)
    (r : ObserverBase ObserverMeta × List ObservedCall) (r' : ObserverBase Meta × List ObservedCall) : Prop :=
  Agree ptrs ptrs' holders r.1 r'.1 ∧ r.2 = r'.2

section State
variable {ptrs ptrs' : DbPointers} {holders : Holders} {b : ObserverBase ObserverMeta} {b' : ObserverBase Meta}
  {curr : ObserverAccess}

theorem Agree.onAddress (agree : Agree ptrs ptrs' holders b b') {iaddr : Address} {holder : Option ThreadId}
    (entry : AgreeUpdate holder curr b.metaTable[iaddr]? b'.metaTable[iaddr]?) :
    AgreeStep ptrs ptrs' (Function.update holders iaddr holder) (b.onAddress Observer.update ptrs curr iaddr)
      (b'.onAddress ObserverNew.update ptrs' curr iaddr) := by
  have db := updateiRoots_alike b.shadow curr agree.irootDb (Observer.update curr b.metaTable[iaddr]?).2
  simp only [ObserverBase.onAddress, ← entry.2, ← agree.shadow]
  refine ⟨⟨agree.unitSize, rfl, agree.filter, db.1, fun a => ?_⟩, db.2⟩
  simp only [Std.ExtTreeMap.getElem?_alter, Std.compare_eq_iff_eq]
  by_cases same : iaddr = a
  · subst same
    simpa using entry.1
  · rw [if_neg same, if_neg same, Function.update_of_ne (Ne.symm same)]
    exact agree.entries a

/-- An access of memory leaves the holders alone. -/
theorem Agree.onMemory (agree : Agree ptrs ptrs' holders b b') (access : curr.type = .memRead ∨ curr.type = .memWrite)
    (iaddr : Address) :
    AgreeStep ptrs ptrs' holders (b.onAddress Observer.update ptrs curr iaddr)
      (b'.onAddress ObserverNew.update ptrs' curr iaddr) := by
  have entry : AgreeUpdate (holders iaddr) curr b.metaTable[iaddr]? b'.metaTable[iaddr]? :=
    access.elim (agree.entries iaddr).read (agree.entries iaddr).write
  simpa using agree.onAddress entry

theorem Agree.onUnits (agree : Agree ptrs ptrs' holders b b') (access : curr.type = .memRead ∨ curr.type = .memWrite)
    (units : List Address) :
    AgreeStep ptrs ptrs' holders (b.onUnits Observer.update ptrs curr units)
      (b'.onUnits ObserverNew.update ptrs' curr units) := by
  induction units generalizing b b' with
  | nil => exact ⟨agree, rfl⟩
  | cons iaddr rest ih =>
    obtain ⟨next, calls⟩ := agree.onMemory access iaddr
    obtain ⟨last, later⟩ := ih next
    refine ⟨last, ?_⟩
    simp only [ObserverBase.onUnits]
    rw [calls, later]

theorem Agree.beforeMem (agree : Agree ptrs ptrs' holders b b')
    (access : curr.type = .memRead ∨ curr.type = .memWrite) (addr size : Address) :
    AgreeStep ptrs ptrs' holders (b.beforeMem Observer.update ptrs curr addr size)
      (b'.beforeMem ObserverNew.update ptrs' curr addr size) := by
  simp only [ObserverBase.beforeMem, ← agree.filter, ← agree.unitSize]
  split
  · exact ⟨agree, rfl⟩
  · exact agree.onUnits access _

/-- Hooks that call nothing. -/
theorem silent {x : Option (ObserverBase ObserverMeta)} {x' : Option (ObserverBase Meta)}
    (related : Option.Rel
      (ObserverBase.Rel (IRootDb.Alike ptrs ptrs') fun a => EntryAgrees (holders a)) x x') :
    Option.Rel (AgreeStep ptrs ptrs' holders) (x.map (·, [])) (x'.map (·, [])) := by
  cases related with
  | some rel => exact .some ⟨agree_iff_rel.mpr rel, rfl⟩
  | none => exact .none

theorem Agree.onMutex (agree : Agree ptrs ptrs' holders b b') (debug : Bool) {addr : Address}
    {holder : Option ThreadId} (entry : AgreeUpdate holder curr b.metaTable[addr]? b'.metaTable[addr]?) :
    Option.Rel (AgreeStep ptrs ptrs' (Function.update holders addr holder))
      (b.onMutex Observer.update ptrs debug curr addr) (b'.onMutex ObserverNew.update ptrs' debug curr addr) := by
  simp only [ObserverBase.onMutex, ← agree.unitSize]
  cases assertIn debug (unitDownAlign addr b.unitSize = addr) with
  | none => exact .none
  | some _ => exact .some (agree.onAddress entry)

theorem Agree.lock (agree : Agree ptrs ptrs' holders b b') (debug : Bool) {t : ThreadId} {clk : ℕ} {inst : InstId}
    {addr : Address} (allowed : (LockOp.lock t addr).Allowed holders) :
    Option.Rel (AgreeStep ptrs ptrs' ((LockOp.lock t addr).after holders))
      (b.onMutex Observer.update ptrs debug ⟨t, clk, .mutexLock, inst⟩ addr)
      (b'.onMutex ObserverNew.update ptrs' debug ⟨t, clk, .mutexLock, inst⟩ addr) := by
  have before := agree.entries addr
  rw [show holders addr = none from allowed] at before
  exact agree.onMutex debug (before.lock ⟨t, clk, .mutexLock, inst⟩ rfl)

theorem Agree.unlock (agree : Agree ptrs ptrs' holders b b') (debug : Bool) {t : ThreadId} {clk : ℕ} {inst : InstId}
    {addr : Address} (allowed : (LockOp.unlock t addr).Allowed holders) :
    Option.Rel (AgreeStep ptrs ptrs' ((LockOp.unlock t addr).after holders))
      (b.onMutex Observer.update ptrs debug ⟨t, clk, .mutexUnlock, inst⟩ addr)
      (b'.onMutex ObserverNew.update ptrs' debug ⟨t, clk, .mutexUnlock, inst⟩ addr) := by
  have before := agree.entries addr
  rw [show holders addr = some t from allowed] at before
  exact agree.onMutex debug (before.unlock rfl)

/-- One hook, allowed if it is an operation on a mutex. -/
theorem Agree.step (agree : Agree ptrs ptrs' holders b b') (debug : Bool) (e : ObserverHook)
    (allowed : ∀ op ∈ e.lockOp, op.Allowed holders) :
    Option.Rel (AgreeStep ptrs ptrs' (e.lockOp.elim holders (·.after holders)))
      (b.step Observer.update ptrs debug e) (b'.step ObserverNew.update ptrs' debug e) := by
  cases e with
  | imageLoad lowAddr highAddr dataStart dataSize bssStart bssSize =>
    exact silent ((agree_iff_rel.mp agree).imageLoad debug lowAddr highAddr dataStart dataSize bssStart bssSize)
  | imageUnload lowAddr dataStart bssStart =>
    exact silent ((agree_iff_rel.mp agree).imageUnload (fun _ => .absent) debug lowAddr dataStart bssStart)
  | threadStart | threadExit => exact .some ⟨agree, rfl⟩
  | beforeMemRead curr clk inst addr size => exact .some (agree.beforeMem (Or.inl rfl) addr size)
  | beforeMemWrite curr clk inst addr size => exact .some (agree.beforeMem (Or.inr rfl) addr size)
  | afterPthreadMutexLock | afterPthreadCondWait | afterPthreadCondTimedwait =>
    exact agree.lock debug (allowed _ rfl)
  | beforePthreadMutexUnlock | beforePthreadCondWait | beforePthreadCondTimedwait =>
    exact agree.unlock debug (allowed _ rfl)
  | afterMalloc size addr | afterValloc size addr | afterRealloc size addr =>
    exact silent ((agree_iff_rel.mp agree).allocAddrRegion debug addr size)
  | afterCalloc nmemb size addr => exact silent ((agree_iff_rel.mp agree).allocAddrRegion debug addr (size * nmemb))
  | beforeRealloc addr | beforeFree addr =>
    exact .some ⟨agree_iff_rel.mpr ((agree_iff_rel.mp agree).freeAddrRegion (fun _ => .absent) addr), rfl⟩

theorem LocksConform.step {e : ObserverHook} {rest : List ObserverHook} (conform : LocksConform holders (e :: rest)) :
    (∀ op ∈ e.lockOp, op.Allowed holders) ∧ LocksConform (e.lockOp.elim holders (·.after holders)) rest := by
  simp only [LocksConform] at conform
  cases op : e.lockOp with
  | none => simpa [op] using conform
  | some op' => simpa [op] using conform

end State

/-! ### Runs -/

/-- Both observers make the same calls of `Observed`, hook by hook, when each starts with
the contents of one database and no mutex is locked twice or unlocked by another thread
than its holder. The processes have their own addresses. -/
theorem observers_agree (ptrs ptrs' : DbPointers) (findInst : BitVec 32 → Option InstId) (proto : IRootDbProto)
    (unitSize : Address) (shadow debug : Bool) (tr : List ObserverHook) (conform : LocksConform (fun _ => none) tr) :
    Observer.observed ptrs debug { unitSize, shadow, irootDb := .load ptrs findInst proto } tr =
      ObserverNew.observed ptrs' debug { unitSize, shadow, irootDb := .load ptrs' findInst proto } tr := by
  let start : ObserverBase ObserverMeta := { unitSize, shadow, irootDb := .load ptrs findInst proto }
  let start' : ObserverBase Meta := { unitSize, shadow, irootDb := .load ptrs' findInst proto }
  have initial : Agree ptrs ptrs' (fun _ => none) start start' := by
    refine ⟨rfl, rfl, rfl, IRootDb.alike_load ptrs ptrs' findInst proto, fun a => ?_⟩
    simpa [start, start'] using EntryAgrees.absent
  refine Runs.outputs_eq
    (fun n b b' => ∃ holders, LocksConform holders (tr.drop n) ∧ Agree ptrs ptrs' holders b b') tr
    (fun n b b' e here related => ?_) start start' ⟨_, conform, initial⟩
  obtain ⟨holders, conform, agree⟩ := related
  obtain ⟨bound, rfl⟩ := List.getElem?_eq_some_iff.mp here
  rw [List.drop_eq_getElem_cons bound] at conform
  obtain ⟨allowed, rest⟩ := conform.step
  exact Runs.rel_mono (agree.step debug _ allowed) fun _ _ next => ⟨⟨_, rest, next.1⟩, next.2⟩

/-- A block whose second unit is read, turns into a mutex, and is freed again. -/
def mutexInBlock : List ObserverHook :=
  [.threadStart 1 0, .threadStart 2 1, .afterMalloc 8 16,
    .beforeMemWrite 1 1 7 16 8, .beforeMemRead 2 1 8 16 4, .beforeMemWrite 1 2 9 16 4,
    .afterPthreadMutexLock 1 3 10 20, .beforeMemRead 1 4 8 20 4, .beforePthreadMutexUnlock 1 5 11 20,
    .afterPthreadMutexLock 2 2 10 20, .beforePthreadCondWait 2 3 12 64 20, .afterPthreadMutexLock 1 6 10 20,
    .beforePthreadMutexUnlock 1 7 11 20, .afterPthreadCondWait 2 4 12 64 20, .beforePthreadMutexUnlock 2 5 11 20,
    .beforeFree 16, .threadExit 2 6]

/-- Event objects from an address on. -/
def laidOut (base : BitVec 64) : DbPointers :=
  ⟨fun inst => 64 * BitVec.ofNat 64 inst, fun place => base + 32 * BitVec.ofNat 64 place⟩

theorem observers_agree_mutexInBlock :
    let start : ObserverBase ObserverMeta :=
      { unitSize := 4, shadow := false, irootDb := .load (laidOut 4096) (fun _ => none) {} }
    let start' : ObserverBase Meta :=
      { unitSize := 4, shadow := false, irootDb := .load (laidOut 8192) (fun _ => none) {} }
    Observer.observed (laidOut 4096) true start mutexInBlock =
        ObserverNew.observed (laidOut 8192) true start' mutexInBlock ∧
      (Observer.observed (laidOut 4096) true start mutexInBlock).map (·.map (·.map (·.iroot.id))) =
        some [[], [], [], [], [1], [2], [], [], [], [3], [], [4], [], [5], [], [], []] := by
  refine ⟨observers_agree (laidOut 4096) (laidOut 8192) (fun _ => none) {} 4 false true mutexInBlock ?_, ?_⟩
  · decide +kernel
  · decide +kernel

end Maple.Idiom
