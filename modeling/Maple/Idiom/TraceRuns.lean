import Maple.Idiom.TraceSteps

/-! Runs of a predictor with its meta data: which metas are alive, and what holds after each event. -/
namespace Maple.Idiom.Predictor
variable {live : MetaId → Prop} {m : MetaId} {t : ThreadId} {i n : ℕ}

/-- The thread and its clock, of an event with an access. -/
def Event.time? : Event → Option (ThreadId × ℕ)
  | .memRead curr clk .. | .memWrite curr clk .. | .mutexLock curr clk .. | .mutexUnlock curr clk .. => some (curr, clk)
  | _ => none

/-- What an event adds to the history has at most the one access. -/
inductive Grown (time : Option (ThreadId × ℕ)) (h : List Happening) : List Happening → Prop
  | quiet (added : List Happening) (silent : ∀ a, .access a ∉ added) : Grown time h (h ++ added)
  | access (before after : List Happening) (a : Access) (own : time = some (a.thdId, a.thdClk))
      (silent : ∀ b, .access b ∉ before ++ after) : Grown time h (h ++ (before ++ .access a :: after))

theorem Grown.same {time : Option (ThreadId × ℕ)} {h h' : List Happening} (same : h' = h) : Grown time h h' := by
  subst same
  have quiet : Grown time h' (h' ++ []) := Grown.quiet [] nofun
  rwa [List.append_nil] at quiet

namespace State
variable {c : Config} {s next : State} {d : DynAcc}

theorem happenings_cases (e : SyncEvent) :
    happenings e = [] ∨ ∃ x, happenings e = [x] ∧ ∀ a, x ≠ .access a := by
  cases e with
  | addLock curr addr => exact Or.inr ⟨_, rfl, nofun⟩
  | removeLock curr addr => exact Or.inr ⟨_, rfl, nofun⟩
  | _ => exact Or.inl rfl

/-- An event on clocks and locks leaves the accesses and their metas alone. -/
structure Synced (s next : State) : Prop where
  metaTable : next.metaTable = s.metaTable
  nextMeta : next.nextMeta = s.nextMeta
  accHistos : next.accHistos = s.accHistos
  calls : next.calls = s.calls

theorem Core.onSync {e : SyncEvent} (core : Core c (· ∈ s.accHistos) s) (allowed : s.sync.Allows e)
    (ran : s.onSync e = some next) : Core c (· ∈ next.accHistos) next ∧ Synced s next ∧
      next.history = s.history ++ happenings e ∧ s.sync.step e = some next.sync := by
  obtain ⟨sync, stepped, same⟩ := Option.bind_eq_some_iff.mp ran
  cases same
  have ages := SyncState.ages_step allowed stepped
  have locks := core.locks.step (lockStep_step allowed stepped) ages
  have clocks := core.clocks.step (e := e) ages
  refine ⟨?_, ⟨rfl, rfl, rfl, rfl⟩, rfl, stepped⟩
  rcases happenings_cases e with none | ⟨x, single, no_access⟩
  · rw [none, List.append_nil] at locks clocks
    simp only [none, List.append_nil]
    exact { core with
      locks
      clocks
      sums := ⟨core.sums.listed, core.sums.tinfo, core.sums.nonempty, core.sums.about, core.sums.wf⟩ }
  · rw [single] at locks clocks
    simp only [single]
    have other : ∀ m t, ¬AccessAt (s.history ++ [x]) m t s.history.length := by
      intro m t here
      obtain ⟨a, same, -⟩ := accessAt_length.mp here
      exact no_access a same
    constructor
    case lasts => exact fun m t i => (core.lasts m t i).trans (lastAt_other (other m t)).symm
    case locks => exact locks
    case clocks => exact clocks
    case calls => exact core.calls.extend fun a same => absurd same (no_access a)
    case sums => exact ⟨core.sums.listed, core.sums.tinfo, core.sums.nonempty, core.sums.about, core.sums.wf⟩
    case pending =>
      intro m t d stored
      obtain ⟨i, last, pending⟩ := core.pending m t d stored
      exact ⟨i, last, pending.append⟩
    case complete =>
      intro i a found
      have bound := (List.getElem?_eq_some_iff.mp found).1
      rw [List.length_append, List.length_singleton] at bound
      rcases Nat.lt_succ_iff_lt_or_eq.mp bound with before | rfl
      · exact core.complete i a ((List.getElem?_append_left before).symm.trans found)
      · rw [List.getElem?_concat_length] at found
        exact absurd (Option.some.inj found) (no_access a)
    case known =>
      intro a member
      rcases List.mem_append.mp member with old | new
      · exact core.known a old
      · exact absurd (List.mem_singleton.mp new).symm (no_access a)
    case made => exact core.made
    case fresh => exact core.fresh
    case recent =>
      intro complex t
      refine (core.recent complex t).extend ?_ fun _ => rfl
      cases x with
      | access a => exact absurd rfl (no_access a)
      | lock => rfl
      | unlock => rfl

/-- The metas that are not freed are those of the table, each at one address. -/
structure Metas (s : State) : Prop where
  alive : ∀ (x : Address) e, s.metaTable[x]? = some e → e.id ∈ s.accHistos
  listed : ∀ m ∈ s.accHistos, ∃ (x : Address) (e : _), s.metaTable[x]? = some e ∧ e.id = m
  injective : ∀ (x y : Address) e f, s.metaTable[x]? = some e → s.metaTable[y]? = some f → e.id = f.id → x = y

structure Inv (c : Config) (s : State) : Prop where
  core : Core c (· ∈ s.accHistos) s
  metas : Metas s

theorem Core.newMeta (core : Core c (· ∈ s.accHistos) s) (iaddr : Address) (type : MetaType) :
    Core c (· ∈ (s.newMeta iaddr type).1.accHistos) (s.newMeta iaddr type).1 := by
  have absent : s.nextMeta ∉ s.accHistos := fun here => (core.fresh _ here).false
  have histo : ∀ m, (s.newMeta iaddr type).1.accHisto m = s.accHisto m := by
    intro m
    simp only [State.newMeta, PredictorNew.accHisto, Std.ExtTreeMap.getElem?_insert, Nat.compare_eq_eq]
    split
    · next same => rw [← same, Std.ExtTreeMap.getElem?_eq_none absent]; rfl
    · rfl
  have live_iff : ∀ m, m ∈ (s.newMeta iaddr type).1.accHistos ↔ m = s.nextMeta ∨ m ∈ s.accHistos := by
    intro m
    simp only [State.newMeta, Std.ExtTreeMap.mem_insert, Nat.compare_eq_eq]
    exact or_congr_left eq_comm
  have lastDyn : ∀ m t, (s.newMeta iaddr type).1.lastDyn m t = s.lastDyn m t := fun m t => by
    rw [State.lastDyn, histo]
    rfl
  constructor
  case lasts => exact core.lasts
  case locks => exact core.locks
  case clocks => exact core.clocks
  case calls =>
    refine ⟨core.calls.placed, core.calls.ordered, fun call made alive i place => ?_⟩
    rcases (live_iff _).mp alive with new | old
    · obtain ⟨a, found, same, -⟩ := core.calls.accessAt made place
      have bound := core.known a (List.mem_of_getElem? found)
      rw [same, new] at bound
      exact absurd bound (lt_irrefl _)
    · exact core.calls.settled call made old i place
  case sums =>
    apply core.sums.histos
    · intro m _ t
      exact congrArg (fun histo : AccHisto => histo.accSumTable[t]?.getD []) (histo m)
    · intro m here
      refine ((live_iff m).mp here).symm.imp_right fun new n a found same => ?_
      have bound := core.made n a found
      rw [same, new] at bound
      exact lt_irrefl _ bound
    · intro m _ missing t
      rw [PredictorNew.sumsOf, PredictorNew.accHisto, Std.ExtTreeMap.getElem?_eq_none missing]
      simp
  case pending =>
    intro m t d stored
    rw [lastDyn] at stored
    exact core.pending m t d stored
  case complete =>
    intro i a found
    rw [lastDyn]
    exact core.complete i a found
  case known => exact fun a member => (core.known a member).trans (Nat.lt_succ_self _)
  case made => exact fun n a found => (core.made n a found).trans (Nat.lt_succ_self _)
  case fresh =>
    intro m here
    rcases (live_iff m).mp here with rfl | old
    · exact Nat.lt_succ_self _
    · exact (core.fresh m old).trans (Nat.lt_succ_self _)
  case recent => exact core.recent

/-- A new meta at an address that has none, or whose old one has just been freed. -/
theorem Inv.newMeta {before : State} (metas : Metas before) (core : Core c (· ∈ s.accHistos) s) (iaddr : Address)
    (type : MetaType) (table : s.metaTable = before.metaTable)
    (live : ∀ m, m ∈ s.accHistos ↔ m ∈ before.accHistos ∧ ∀ e ∈ before.metaTable[iaddr]?, e.id ≠ m) :
    Inv c (s.newMeta iaddr type).1 := by
  have lookup : ∀ x : Address, (s.newMeta iaddr type).1.metaTable[x]? =
      if iaddr = x then some ⟨s.nextMeta, type⟩ else before.metaTable[x]? := by
    intro x
    rw [State.newMeta, ← table]
    exact getElem?_insert_address _ _ _ _
  have live_iff : ∀ m, m ∈ (s.newMeta iaddr type).1.accHistos ↔ s.nextMeta = m ∨ m ∈ s.accHistos := by
    intro m
    simp only [State.newMeta, Std.ExtTreeMap.mem_insert, Nat.compare_eq_eq]
  have others : ∀ x e, iaddr ≠ x → before.metaTable[x]? = some e → e.id ∈ s.accHistos := by
    intro x e other found
    refine (live _).mpr ⟨metas.alive x e found, fun f here same => ?_⟩
    exact other (metas.injective iaddr x f e here found same)
  have unused : ∀ x e, iaddr ≠ x → before.metaTable[x]? = some e → e.id ≠ s.nextMeta := by
    intro x e other found same
    exact (same ▸ core.fresh _ (others x e other found)).false
  refine ⟨core.newMeta iaddr type, ?_, ?_, ?_⟩
  · intro x e found
    rw [lookup] at found
    rw [live_iff]
    split at found
    · cases found
      exact Or.inl rfl
    · next other => exact Or.inr (others x e other found)
  · intro m here
    rcases (live_iff m).mp here with rfl | old
    · exact ⟨iaddr, _, (lookup iaddr).trans (if_pos rfl), rfl⟩
    · obtain ⟨before_alive, apart⟩ := (live m).mp old
      obtain ⟨x, e, found, rfl⟩ := metas.listed m before_alive
      refine ⟨x, e, (lookup x).trans ((if_neg ?_).trans found), rfl⟩
      rintro rfl
      exact apart e found rfl
  · intro x y e f found found' same
    rw [lookup] at found found'
    split at found
    · next own =>
      cases found
      split at found'
      · next own' => exact own.symm.trans own'
      · next other => exact absurd same.symm (unused y f other found')
    · next other =>
      split at found'
      · cases found'
        exact absurd same (unused x e other found)
      · exact metas.injective x y e f found found' same

/-- The steps that leave the metas alone. -/
theorem Metas.same (metas : Metas s) (table : next.metaTable = s.metaTable)
    (live : ∀ m, m ∈ next.accHistos ↔ m ∈ s.accHistos) : Metas next := by
  refine ⟨fun x e found => (live _).mpr (metas.alive x e (table ▸ found)), fun m here => ?_, fun x y e f found found' =>
    metas.injective x y e f (table ▸ found) (table ▸ found')⟩
  rw [table]
  exact metas.listed m ((live m).mp here)

theorem Inv.access (inv : Inv c s) (alive : m ∈ s.accHistos) (started : t ∈ s.sync.currLsMap) (clk : ℕ)
    (type : IRootEventType) (inst : InstId) :
    ∃ next vc, s.processiRootEvent c t clk type inst m = some next ∧ Inv c next ∧
      Accessed s next ⟨m, t, clk, type, inst, vc⟩ := by
  obtain ⟨next, vc, ran, core, accessed⟩ := inv.core.processiRootEvent alive started clk type inst
  exact ⟨next, vc, ran, ⟨core, inv.metas.same accessed.metaTable accessed.live⟩, accessed⟩

theorem started_of_access {clk : ℕ} {type : IRootEventType} {inst : InstId}
    (ran : s.processiRootEvent c t clk type inst m = some next) : t ∈ s.sync.currLsMap := by
  obtain ⟨vc, -, ran⟩ := Option.bind_eq_some_iff.mp ran
  obtain ⟨ls, held, -⟩ := Option.bind_eq_some_iff.mp ran
  exact Std.ExtTreeMap.mem_iff_isSome_getElem?.mpr (by rw [held]; rfl)

theorem Inv.onSync {e : SyncEvent} (inv : Inv c s) (allowed : s.sync.Allows e) (ran : s.onSync e = some next) :
    Inv c next ∧ Synced s next ∧ next.history = s.history ++ happenings e := by
  obtain ⟨core, synced, grown, -⟩ := inv.core.onSync allowed ran
  exact ⟨⟨core, inv.metas.same synced.metaTable fun m => by rw [synced.accHistos]⟩, synced, grown⟩

/-- The meta of a unit of memory, made if there is none. -/
theorem Inv.getMemMeta (inv : Inv c s) (iaddr : Address) :
    ((s.getMemMeta iaddr).2 = none ∧ (s.getMemMeta iaddr).1 = s) ∨ ∃ found m, s.getMemMeta iaddr = (found, some m) ∧
      Inv c found ∧ m ∈ found.accHistos ∧ found.sync = s.sync ∧ found.history = s.history := by
  unfold State.getMemMeta
  split
  · next missing =>
    refine Or.inr ⟨_, _, rfl, Inv.newMeta inv.metas inv.core iaddr .mem rfl fun m => ?_, ?_, rfl, rfl⟩
    · rw [missing]
      simp
    · simp
  · next m found =>
    split
    · exact Or.inr ⟨s, m.id, rfl, inv, inv.metas.alive iaddr m found, rfl, rfl⟩
    · exact Or.inl ⟨rfl, rfl⟩

theorem Inv.getMutexMeta (inv : Inv c s) (iaddr : Address) :
    ∃ found m, s.getMutexMeta c iaddr = some (found, m) ∧ Inv c found ∧ m ∈ found.accHistos ∧ found.sync = s.sync ∧
      found.history = s.history := by
  unfold State.getMutexMeta
  split
  · next missing =>
    refine ⟨_, _, rfl, Inv.newMeta inv.metas inv.core iaddr .mutex rfl fun m => ?_, ?_, rfl, rfl⟩
    · rw [missing]
      simp
    · simp
  · next m found =>
    split
    · -- the memory becomes a mutex
      obtain ⟨freed, ran, core, spec⟩ := inv.core.processFree (inv.metas.alive iaddr m found)
      rw [ran]
      refine ⟨_, _, rfl, Inv.newMeta inv.metas core iaddr .mutex spec.metaTable fun m' => ?_, ?_, spec.sync, spec.history⟩
      · rw [spec.live, found]
        simp only [Option.mem_some, forall_eq', ne_comm]
      · simp
    · exact ⟨s, m.id, rfl, inv, inv.metas.alive iaddr m found, rfl, rfl⟩

/-- A loop over addresses that are not used any more. -/
theorem Inv.freeUnit (inv : Inv c s) (iaddr : Address) :
    ∃ next, s.freeUnit c iaddr = some next ∧ Inv c next ∧ next.history = s.history := by
  unfold State.freeUnit
  let cleared : State := { s with
    toPredictorNew := { s.toPredictorNew with
      sync := { s.sync with
        condMetaTable := s.sync.condMetaTable.erase iaddr
        barrierMetaTable := s.sync.barrierMetaTable.erase iaddr } } }
  have core : Core c (· ∈ cleared.accHistos) cleared :=
    { inv.core with
      locks := ⟨inv.core.locks.snapshots, inv.core.locks.version, inv.core.locks.lockers, inv.core.locks.clocked⟩
      clocks := ⟨inv.core.clocks.current, inv.core.clocks.ordered⟩
      sums := ⟨inv.core.sums.listed, inv.core.sums.tinfo, inv.core.sums.nonempty, inv.core.sums.about, inv.core.sums.wf⟩ }
  cases found : s.metaTable[iaddr]? with
  | none => exact ⟨cleared, rfl, ⟨core, ⟨inv.metas.alive, inv.metas.listed, inv.metas.injective⟩⟩, rfl⟩
  | some m =>
    have alive : m.id ∈ cleared.accHistos := inv.metas.alive iaddr m found
    obtain ⟨freed, ran, core, spec⟩ := core.processFree alive
    have lookup : ∀ x : Address, (freed.metaTable.erase iaddr)[x]? = if iaddr = x then none else s.metaTable[x]? := by
      intro x
      rw [spec.metaTable]
      exact getElem?_erase_address _ _ _
    refine ⟨{ freed with metaTable := freed.metaTable.erase iaddr }, ?_, ⟨?_, ?_, ?_, ?_⟩, spec.history⟩
    · dsimp only
      rw [show State.processFree c _ m.id = some freed from ran]
      rfl
    · exact ⟨core.lasts, core.locks, core.clocks, core.calls, core.sums, core.pending, core.complete, core.known, core.made,
        core.fresh, core.recent⟩
    · intro x e found'
      rw [lookup] at found'
      split at found'
      · exact nomatch found'
      · next other =>
        refine (spec.live _).mpr ⟨inv.metas.alive x e found', fun same => other ?_⟩
        exact inv.metas.injective iaddr x m e found found' same.symm
    · intro m' here
      obtain ⟨before_alive, apart⟩ := (spec.live m').mp here
      obtain ⟨x, e, found', rfl⟩ := inv.metas.listed m' before_alive
      refine ⟨x, e, (lookup x).trans ((if_neg ?_).trans found'), rfl⟩
      rintro rfl
      cases found.symm.trans found'
      exact apart rfl
    · intro x y e f found' found'' same
      rw [lookup] at found' found''
      split at found'
      · exact nomatch found'
      · split at found''
        · exact nomatch found''
        · exact inv.metas.injective x y e f found' found'' same

theorem Inv.free (inv : Inv c s) (units : List Address) :
    ∃ next, units.foldlM (State.freeUnit c) s = some next ∧ Inv c next ∧ next.history = s.history := by
  induction units generalizing s with
  | nil => exact ⟨s, rfl, inv, rfl⟩
  | cons iaddr units ih =>
    obtain ⟨middle, ran, inv, same⟩ := inv.freeUnit iaddr
    obtain ⟨next, looped, inv, same'⟩ := ih inv
    exact ⟨next, by rw [List.foldlM_cons, ran]; exact looped, inv, same'.trans same⟩

/-- Accesses and operations of started threads, on aligned mutexes, and frees. -/
def Ready (c : Config) (s : State) : Event → Prop
  | .memRead curr _ _ _ | .memWrite curr _ _ _ => curr ∈ s.sync.currLsMap
  | .mutexLock curr _ _ addr | .mutexUnlock curr _ _ addr => curr ∈ s.sync.currLsMap ∧ unitDownAlign addr c.unitSize = addr
  | .atomicInst _ | .free _ => True
  | .sync _ => False

theorem Inv.mem (inv : Inv c s) (started : t ∈ s.sync.currLsMap) (clk : ℕ) (type : IRootEventType) (inst : InstId)
    (iaddr : Address) : ∃ next, s.mem c t clk type inst iaddr = some next ∧ Inv c next ∧
      Grown (some (t, clk)) s.history next.history := by
  unfold State.mem
  rcases inv.getMemMeta iaddr with ⟨ignored, -⟩ | ⟨found, m, got, inv', alive, sync, history⟩
  · rw [show s.getMemMeta iaddr = ((s.getMemMeta iaddr).1, none) from Prod.ext rfl ignored]
    exact ⟨s, rfl, inv, Grown.same rfl⟩
  · rw [got]
    obtain ⟨next, vc, ran, inv', accessed⟩ := inv'.access alive (sync ▸ started) clk type inst
    refine ⟨next, ran, inv', ?_⟩
    rw [accessed.history, history]
    exact Grown.access [] [] _ rfl nofun

theorem started_of_mem {clk : ℕ} {type : IRootEventType} {inst : InstId} {iaddr : Address} (inv : Inv c s)
    (ran : s.mem c t clk type inst iaddr = some next) : next = s ∨ t ∈ s.sync.currLsMap := by
  unfold State.mem at ran
  rcases inv.getMemMeta iaddr with ⟨ignored, -⟩ | ⟨found, m, got, -, -, sync, -⟩
  · rw [show s.getMemMeta iaddr = ((s.getMemMeta iaddr).1, none) from Prod.ext rfl ignored] at ran
    exact Or.inl (Option.some.inj ran).symm
  · rw [got] at ran
    exact Or.inr (sync ▸ started_of_access ran)

theorem addLock_spec {sync : SyncState} (addr : Address) (started : t ∈ sync.currLsMap) :
    ∃ next, sync.addLock t addr = some next ∧ t ∈ next.currLsMap := by
  obtain ⟨ls, held⟩ := Option.isSome_iff_exists.mp (Std.ExtTreeMap.mem_iff_isSome_getElem?.mp started)
  rw [SyncState.addLock, held]
  exact ⟨_, rfl, by simp⟩

theorem removeLock_spec {sync : SyncState} (addr : Address) (started : t ∈ sync.currLsMap) :
    ∃ next, sync.removeLock t addr = some next ∧ t ∈ next.currLsMap := by
  obtain ⟨ls, held⟩ := Option.isSome_iff_exists.mp (Std.ExtTreeMap.mem_iff_isSome_getElem?.mp started)
  rw [SyncState.removeLock, held]
  exact ⟨_, rfl, by simp⟩

theorem onSync_of_step {e : SyncEvent} {sync : SyncState} (stepped : s.sync.step e = some sync) :
    ∃ next, s.onSync e = some next ∧ next.sync = sync := by
  rw [State.onSync, stepped]
  exact ⟨_, rfl, rfl⟩

theorem Inv.mutexLock (inv : Inv c s) (started : t ∈ s.sync.currLsMap) (clk : ℕ) (inst : InstId) {addr : Address}
    (aligned : unitDownAlign addr c.unitSize = addr) :
    ∃ next, s.mutexLock c t clk inst addr = some next ∧ Inv c next ∧ Grown (some (t, clk)) s.history next.history := by
  obtain ⟨found, m, got, inv', alive, sync, history⟩ := inv.getMutexMeta addr
  obtain ⟨processed, vc, ran, inv', accessed⟩ := inv'.access alive (sync ▸ started) clk .mutexLock inst
  obtain ⟨locked, added, -⟩ := addLock_spec (t := t) addr
    (show t ∈ processed.sync.currLsMap by rw [accessed.sync, sync]; exact started)
  obtain ⟨next, stepped, -⟩ := onSync_of_step (e := .addLock t addr) added
  obtain ⟨inv', -, grown⟩ := inv'.onSync (e := .addLock t addr) trivial stepped
  refine ⟨next, ?_, inv', ?_⟩
  · simp only [State.mutexLock, debugAssert_pos aligned, got, ran, Option.bind_eq_bind, Option.bind_some]
    exact stepped
  · rw [grown, accessed.history, history, List.append_assoc]
    exact Grown.access [] (happenings (.addLock t addr)) _ rfl (by simp [happenings])

theorem Inv.mutexUnlock (inv : Inv c s) (started : t ∈ s.sync.currLsMap) (clk : ℕ) (inst : InstId) {addr : Address}
    (aligned : unitDownAlign addr c.unitSize = addr) :
    ∃ next, s.mutexUnlock c t clk inst addr = some next ∧ Inv c next ∧ Grown (some (t, clk)) s.history next.history := by
  obtain ⟨found, m, got, inv', alive, sync, history⟩ := inv.getMutexMeta addr
  obtain ⟨unlocked, removed, still⟩ := removeLock_spec (t := t) addr (show t ∈ found.sync.currLsMap from sync ▸ started)
  obtain ⟨released, stepped, sync'⟩ := onSync_of_step (e := .removeLock t addr) removed
  obtain ⟨inv', synced, grown⟩ := inv'.onSync (e := .removeLock t addr) trivial stepped
  obtain ⟨next, vc, ran, inv', accessed⟩ := inv'.access (m := m) (by rw [synced.accHistos]; exact alive) (sync' ▸ still) clk
    .mutexUnlock inst
  refine ⟨next, ?_, inv', ?_⟩
  · simp only [State.mutexUnlock, debugAssert_pos aligned, got, stepped, ran, Option.bind_eq_bind, Option.bind_some]
  · rw [accessed.history, grown, history, List.append_assoc]
    exact Grown.access (happenings (.removeLock t addr)) [] _ rfl (by simp [happenings])

/-- What is ready never fails. -/
theorem Inv.serves {e : Event} (inv : Inv c s) (ready : Ready c s e) :
    ∃ next, s.step c e = some next ∧ Inv c next ∧ Grown e.time? s.history next.history := by
  cases e with
  | memRead curr clk inst iaddr => exact inv.mem ready clk .memRead inst iaddr
  | memWrite curr clk inst iaddr => exact inv.mem ready clk .memWrite inst iaddr
  | atomicInst inst =>
    refine ⟨_, rfl, ⟨?_, ⟨inv.metas.alive, inv.metas.listed, inv.metas.injective⟩⟩, Grown.same rfl⟩
    exact ⟨inv.core.lasts, inv.core.locks, inv.core.clocks, inv.core.calls, inv.core.sums, inv.core.pending,
      inv.core.complete, inv.core.known, inv.core.made, inv.core.fresh, inv.core.recent⟩
  | mutexLock curr clk inst addr => exact inv.mutexLock ready.1 clk inst ready.2
  | mutexUnlock curr clk inst addr => exact inv.mutexUnlock ready.1 clk inst ready.2
  | sync e => exact ready.elim
  | free units =>
    obtain ⟨next, ran, inv', same⟩ := inv.free units
    exact ⟨next, ran, inv', Grown.same same⟩

theorem ready_of_mutexLock {clk : ℕ} {inst : InstId} {addr : Address} (inv : Inv c s)
    (ran : s.mutexLock c t clk inst addr = some next) : t ∈ s.sync.currLsMap ∧ unitDownAlign addr c.unitSize = addr := by
  obtain ⟨_, aligned, ran⟩ := Option.bind_eq_some_iff.mp ran
  obtain ⟨found, m, got, -, -, sync, -⟩ := inv.getMutexMeta addr
  obtain ⟨⟨found', m'⟩, got', ran⟩ := Option.bind_eq_some_iff.mp ran
  cases got.symm.trans got'
  obtain ⟨processed, accessed, -⟩ := Option.bind_eq_some_iff.mp ran
  exact ⟨sync ▸ started_of_access accessed, (debugAssert_eq_some _).mp aligned⟩

theorem ready_of_mutexUnlock {clk : ℕ} {inst : InstId} {addr : Address} (inv : Inv c s)
    (ran : s.mutexUnlock c t clk inst addr = some next) : t ∈ s.sync.currLsMap ∧ unitDownAlign addr c.unitSize = addr := by
  obtain ⟨_, aligned, ran⟩ := Option.bind_eq_some_iff.mp ran
  obtain ⟨found, m, got, -, -, sync, -⟩ := inv.getMutexMeta addr
  obtain ⟨⟨found', m'⟩, got', ran⟩ := Option.bind_eq_some_iff.mp ran
  cases got.symm.trans got'
  obtain ⟨removed, stepped, -⟩ := Option.bind_eq_some_iff.mp ran
  obtain ⟨next', stepped, -⟩ := Option.bind_eq_some_iff.mp stepped
  obtain ⟨ls, held, -⟩ := Option.bind_eq_some_iff.mp stepped
  refine ⟨?_, (debugAssert_eq_some _).mp aligned⟩
  rw [← sync]
  exact Std.ExtTreeMap.mem_iff_isSome_getElem?.mpr (by rw [held]; rfl)

theorem Inv.step {e : Event} (inv : Inv c s) (allowed : s.Allows e) (ran : s.step c e = some next) :
    Inv c next ∧ Grown e.time? s.history next.history := by
  have served : Ready c s e → Inv c next ∧ Grown e.time? s.history next.history := by
    intro ready
    obtain ⟨next', ran', inv', grown⟩ := inv.serves ready
    cases ran.symm.trans ran'
    exact ⟨inv', grown⟩
  cases e with
  | memRead curr clk inst iaddr | memWrite curr clk inst iaddr =>
    rcases started_of_mem inv ran with rfl | started
    · exact ⟨inv, Grown.same rfl⟩
    · exact served started
  | atomicInst inst => exact served trivial
  | mutexLock curr clk inst addr => exact served (ready_of_mutexLock inv ran)
  | mutexUnlock curr clk inst addr => exact served (ready_of_mutexUnlock inv ran)
  | sync e =>
    obtain ⟨inv', -, grown⟩ := inv.onSync allowed ran
    refine ⟨inv', ?_⟩
    rw [grown]
    exact Grown.quiet _ fun a member => by cases e <;> simp [happenings] at member
  | free units => exact served trivial

theorem inv_initial (c : Config) : Inv c {} where
  core := {
    lasts := fun m t i => iff_of_false (by rintro ⟨⟩) fun last => by
      obtain ⟨a, found, -⟩ := last.here
      cases found
    locks := ⟨fun t ls found => by simp at found, rfl, by simp, fun t held => by simp at held⟩
    clocks := ⟨by simp, List.Pairwise.nil⟩
    calls := ⟨by simp, List.Pairwise.nil, by simp⟩
    sums := {
      listed := fun m alive => by simp at alive
      tinfo := by simp
      nonempty := by simp
      about := by simp
      wf := ⟨fun s => by simp [PairIndex.succOf], fun d => by simp [PairIndex.predOf], fun s d => by
        simp [PairIndex.succOf, PairIndex.predOf]⟩ }
    pending := fun m t d stored => by simp [State.lastDyn, PredictorNew.accHisto] at stored
    complete := by simp
    known := by simp
    made := by simp
    fresh := fun m alive => by simp at alive
    recent := fun _ t => ⟨by simp [recentInfo, placesOf], fun k e i found => by simp [recentInfo] at found, fun m k =>
      iff_of_false (by simp [recentInfo]) (by rintro ⟨i, last, -⟩; cases last)⟩ }
  metas := ⟨fun x e found => by simp at found, fun m alive => by simp at alive, fun x y e f found => by simp at found⟩

theorem inv_of_reach (reached : Runs.Reach (· = {}) Allows (State.step c) s) : Inv c s := by
  apply reached.invariant (Inv c)
  · rintro _ rfl
    exact inv_initial c
  · intro s e next inv allowed stepped
    exact (inv.step allowed stepped).1

end State
end Maple.Idiom.Predictor
