import Maple.Idiom.Summaries

/-! What holds of a predictor between its steps: the locks and clocks of the threads, the calls
that have been made, the summaries that they made, and the recent accesses. -/
namespace Maple.Idiom.Predictor

/-- The lock sets are the acquisitions that hold. -/
structure LocksOk (sync : SyncState) (h : List Happening) : Prop where
  snapshots : ∀ (t : ThreadId) ls, sync.currLsMap[t]? = some ls → Snapshot h t h.length ls
  version : sync.currLockVersion = h.countP Happening.isLock
  lockers : ∀ t l, .lock t l ∈ h → t ∈ sync.currLsMap
  clocked : ∀ t : ThreadId, t ∈ sync.currLsMap → t ∈ sync.currVcMap

/-- The accesses of a thread have growing clocks. -/
structure ClocksOk (sync : SyncState) (h : List Happening) : Prop where
  current : ∀ a, .access a ∈ h → ∃ vc, sync.currVcMap[a.thdId]? = some vc ∧ a.vc.happensBefore vc = true
  ordered : h.Pairwise fun x y => ∀ a b, x = .access a → y = .access b → a.thdId = b.thdId → a.vc.happensBefore b.vc = true

/-- The access at a place has been summarised. -/
def Passed (calls : List Call) (i : ℕ) : Prop := ∃ call ∈ calls, call.place = some i

/-- One call is made before the other for the same thread and meta. -/
def Call.Follows (call later : Call) : Prop :=
  call.dynAcc.metaId = later.dynAcc.metaId → call.dynAcc.thdId = later.dynAcc.thdId →
    ∀ i j, call.place = some i → later.place = some j → i < j

structure CallsOk (live : MetaId → Prop) (h : List Happening) (calls : List Call) : Prop where
  placed : ∀ call ∈ calls, ∃ i, call.place = some i ∧ h[i]? = some (.access call.dynAcc.access) ∧
    FlagsExact h call.dynAcc.metaId call.dynAcc.thdId i call.dynAcc.fls
  ordered : calls.Pairwise Call.Follows
  settled : ∀ call ∈ calls, live call.dynAcc.metaId → ∀ i, call.place = some i →
    ∃ k, i < k ∧ AccessAt h call.dynAcc.metaId call.dynAcc.thdId k

/-- An access that waits for the next one of its thread. -/
structure Pending (h : List Happening) (m : MetaId) (t : ThreadId) (i : ℕ) (d : DynAcc) : Prop where
  metaId : d.metaId = m
  thdId : d.thdId = t
  access : h[i]? = some (.access d.access)
  snapshot : Snapshot h t i d.ls
  first : FirstExact h m t i d.fls
  unset : ∀ (l : Address) flag, d.fls.lockFlagTable[l]? = some flag → flag.2 = false

/-- What the calls with a summary tell of its clocks. -/
def clocksOf (calls : List Call) (n : ℕ) : List (VectorClock × ℕ) :=
  (calls.filter fun call => call.accSum = n).map fun call => (call.dynAcc.vc, call.dynAcc.thdClk)

structure SumsOk (p : PredictorNew) (calls : List Call) : Prop where
  listed : ∀ m ∈ p.accHistos, p.Listed m
  tinfo : ∀ (n : ℕ) a, p.accSums[n]? = some a → a.tinfo = (clocksOf calls n).foldl pushClock []
  nonempty : ∀ (n : ℕ) a, p.accSums[n]? = some a → a.tinfo ≠ []
  about : ∀ call ∈ calls, ∃ a, p.accSums[call.accSum]? = some a ∧ About a call.dynAcc
  wf : p.pairs.Wf

def Happening.isAccessOf (t : ThreadId) : Happening → Bool
  | .access a => a.thdId = t
  | _ => false

/-- The places of the accesses of a thread. -/
def placesOf (h : List Happening) (t : ThreadId) : List ℕ :=
  (List.range h.length).filter fun i => h[i]?.any (·.isAccessOf t)

/-- The entry is that of the access at a place. -/
structure EntryOk (h : List Happening) (calls : List Call) (t : ThreadId) (e : Entry) (i : ℕ) : Prop where
  access : ∃ a, h[i]? = some (.access a) ∧ a.metaId = e.metaId ∧ a.thdId = t ∧ a.thdClk = e.thdClk ∧ a.vc = e.vc
  ls : Snapshot h t i e.ls
  accSum : ∀ n, e.accSum = some n ↔ ∃ call ∈ calls, call.place = some i ∧ call.accSum = n

structure RecentOk (h : List Happening) (lastOf : MetaId → ThreadId → Option ℕ) (calls : List Call) (t : ThreadId)
    (ri : RecentInfo) : Prop where
  length : ri.entryVec.length = (placesOf h t).length
  entries : ∀ (k : ℕ) e i, ri.entryVec[k]? = some e → (placesOf h t)[k]? = some i → EntryOk h calls t e i
  raw : ∀ (m : MetaId) k, ri.rawEntryIndex[m]? = some k ↔ ∃ i, lastOf m t = some i ∧ (placesOf h t)[k]? = some i

variable {h : List Happening} {x : Happening} {m : MetaId} {t : ThreadId} {i k : ℕ} {calls : List Call} {call : Call}
  {d : DynAcc} {live : MetaId → Prop} {a : Access} {sync next : SyncState}

theorem lastAt_other (other : ¬AccessAt (h ++ [x]) m t h.length) : LastAt (h ++ [x]) m t i ↔ LastAt h m t i := by
  have within : ∀ k, AccessAt (h ++ [x]) m t k ↔ AccessAt h m t k := by
    intro k
    constructor
    · intro access
      have bound := access.lt
      rw [List.length_append, List.length_singleton] at bound
      rcases Nat.lt_succ_iff_lt_or_eq.mp bound with before | rfl
      · exact (accessAt_append before).mp access
      · exact absurd access other
    · exact AccessAt.append
  constructor
  · rintro ⟨here, newest⟩
    exact ⟨(within i).mp here, fun k access => newest k access.append⟩
  · rintro ⟨here, newest⟩
    exact ⟨here.append, fun k access => newest k ((within k).mp access)⟩

theorem lastAt_new (here : AccessAt (h ++ [x]) m t h.length) : LastAt (h ++ [x]) m t i ↔ i = h.length := by
  constructor
  · intro last
    have above := last.newest h.length here
    have bound := last.here.lt
    rw [List.length_append, List.length_singleton] at bound
    omega
  · rintro rfl
    refine ⟨here, fun k access => ?_⟩
    have bound := access.lt
    rw [List.length_append, List.length_singleton] at bound
    omega

theorem exists_lastAt (here : AccessAt h m t k) : ∃ i, LastAt h m t i := by
  classical
  have bounded : ∀ k, AccessAt h m t k → k ≤ Nat.findGreatest (AccessAt h m t) h.length := fun k access =>
    Nat.le_findGreatest access.lt.le access
  exact ⟨_, Nat.findGreatest_spec here.lt.le here, bounded⟩

namespace CallsOk

theorem accessAt (ok : CallsOk live h calls) (made : call ∈ calls) (place : call.place = some i) :
    AccessAt h call.dynAcc.metaId call.dynAcc.thdId i := by
  obtain ⟨i', same, found, -⟩ := ok.placed call made
  cases place.symm.trans same
  exact ⟨_, found, rfl, rfl⟩

/-- In a live meta the last accesses wait. -/
theorem waits (ok : CallsOk live h calls) (alive : live m) (last : LastAt h m t i) : ¬Passed calls i := by
  rintro ⟨call, made, place⟩
  obtain ⟨i', same, found, -⟩ := ok.placed call made
  cases place.symm.trans same
  obtain ⟨a, found', rfl, rfl⟩ := last.here
  cases found.symm.trans found'
  obtain ⟨k, after, access⟩ := ok.settled call made alive i place
  exact absurd after (Nat.not_lt.mpr (last.newest k access))

theorem extend (ok : CallsOk live h calls) (alive : ∀ a, x = .access a → live a.metaId) :
    CallsOk live (h ++ [x]) calls where
  placed := by
    intro call made
    obtain ⟨i, place, found, flags⟩ := ok.placed call made
    have bound := (List.getElem?_eq_some_iff.mp found).1
    refine ⟨i, place, (List.getElem?_append_left bound).trans found, flags.append bound ?_⟩
    by_cases here : AccessAt (h ++ [x]) call.dynAcc.metaId call.dynAcc.thdId h.length
    · obtain ⟨a, same, own, -⟩ := accessAt_length.mp here
      exact Or.inl (ok.settled call made (own ▸ alive a same) i place)
    · exact Or.inr here
  ordered := ok.ordered
  settled := by
    intro call made alive i place
    obtain ⟨k, after, access⟩ := ok.settled call made alive i place
    exact ⟨k, after, access.append⟩

theorem mono {fewer : MetaId → Prop} (ok : CallsOk live h calls) (implied : ∀ m, fewer m → live m) :
    CallsOk fewer h calls :=
  ⟨ok.placed, ok.ordered, fun call made alive => ok.settled call made (implied _ alive)⟩

/-- The call for the last access so far. -/
theorem push (ok : CallsOk live h calls) {accSum : ℕ} (found : h[i]? = some (.access d.access))
    (flags : FlagsExact h d.metaId d.thdId i d.fls) (newest : ∀ k, AccessAt h d.metaId d.thdId k → Passed calls k → k < i)
    (settled : live d.metaId → ∃ k, i < k ∧ AccessAt h d.metaId d.thdId k) :
    CallsOk live h (calls ++ [⟨some i, d, accSum⟩]) where
  placed := by
    intro call made
    rcases List.mem_append.mp made with made | made
    · exact ok.placed call made
    · cases List.mem_singleton.mp made
      exact ⟨i, rfl, found, flags⟩
  ordered := by
    refine List.pairwise_append.mpr ⟨ok.ordered, List.pairwise_singleton _ _, ?_⟩
    intro call made last single
    cases List.mem_singleton.mp single
    intro same_meta same_thread k i' place place'
    cases place'
    have access := ok.accessAt made place
    rw [same_meta, same_thread] at access
    exact newest k access ⟨call, made, place⟩
  settled := by
    intro call made alive k place
    rcases List.mem_append.mp made with made | made
    · exact ok.settled call made alive k place
    · cases List.mem_singleton.mp made
      cases place
      exact settled alive

end CallsOk

theorem passed_append {c : Call} : Passed (calls ++ [c]) i ↔ Passed calls i ∨ c.place = some i := by
  simp only [Passed, List.mem_append, List.mem_singleton]
  constructor
  · rintro ⟨call, made | rfl, place⟩
    · exact Or.inl ⟨call, made, place⟩
    · exact Or.inr place
  · rintro (⟨call, made, place⟩ | place)
    · exact ⟨call, Or.inl made, place⟩
    · exact ⟨c, Or.inr rfl, place⟩

theorem Pending.append (pending : Pending h m t i d) : Pending (h ++ [x]) m t i d := by
  have bound := (List.getElem?_eq_some_iff.mp pending.access).1
  exact ⟨pending.metaId, pending.thdId, (List.getElem?_append_left bound).trans pending.access,
    pending.snapshot.append bound.le, pending.first.append bound.le, pending.unset⟩

section Sync
variable {e : SyncEvent}

/-- Only the locks of the one thread that is at work change. -/
inductive LockStep (sync next : SyncState) : List Happening → Prop
  | start (t : ThreadId) (fresh : t ∉ sync.currVcMap) (clocked : t ∈ next.currVcMap)
      (locks : next.currLsMap = sync.currLsMap.insert t ∅) (version : next.currLockVersion = sync.currLockVersion) :
      LockStep sync next []
  | add (t : ThreadId) (l : Address) (ls : LockSet) (found : sync.currLsMap[t]? = some ls)
      (locks : next.currLsMap = sync.currLsMap.insert t (ls.insert l (sync.currLockVersion + 1)))
      (version : next.currLockVersion = sync.currLockVersion + 1) : LockStep sync next [.lock t l]
  | remove (t : ThreadId) (l : Address) (ls : LockSet) (found : sync.currLsMap[t]? = some ls)
      (locks : next.currLsMap = sync.currLsMap.insert t (ls.erase l))
      (version : next.currLockVersion = sync.currLockVersion) : LockStep sync next [.unlock t l]
  | none (locks : next.currLsMap = sync.currLsMap) (version : next.currLockVersion = sync.currLockVersion) :
      LockStep sync next []

theorem lockStep_onCond {addr : Address} {made : CondState → Option CondState}
    (ran : sync.onCond addr made = some next) : LockStep sync next [] := by
  obtain ⟨c, -, same⟩ := Option.bind_eq_some_iff.mp ran
  cases same
  exact .none rfl rfl

theorem lockStep_step (allowed : sync.Allows e) (ran : sync.step e = some next) : LockStep sync next (happenings e) := by
  match e with
  | .threadStart curr parent =>
    simp only [SyncState.step, SyncState.threadStart] at ran
    split at ran
    · cases ran
      exact .start curr allowed (by simp) rfl rfl
    · obtain ⟨parentVc, -, same⟩ := Option.bind_eq_some_iff.mp ran
      cases same
      exact .start curr allowed (by simp) rfl rfl
  | .afterPthreadJoin curr child =>
    obtain ⟨vc, -, ran⟩ := Option.bind_eq_some_iff.mp ran
    obtain ⟨childVc, -, same⟩ := Option.bind_eq_some_iff.mp ran
    cases same
    exact .none rfl rfl
  | .signal curr addr =>
    rw [SyncState.step] at ran
    exact lockStep_onCond ran
  | .broadcast curr addr =>
    rw [SyncState.step] at ran
    exact lockStep_onCond ran
  | .preWait curr addr timedwait =>
    rw [SyncState.step] at ran
    exact lockStep_onCond ran
  | .postWait curr addr =>
    rw [SyncState.step] at ran
    exact lockStep_onCond ran
  | .preBarrier curr addr =>
    obtain ⟨vc, -, same⟩ := Option.bind_eq_some_iff.mp ran
    cases same
    exact .none rfl rfl
  | .postBarrier curr addr =>
    obtain ⟨vc, -, ran⟩ := Option.bind_eq_some_iff.mp ran
    obtain ⟨left, -, same⟩ := Option.bind_eq_some_iff.mp ran
    cases same
    exact .none rfl rfl
  | .addLock curr addr =>
    obtain ⟨ls, found, same⟩ := Option.bind_eq_some_iff.mp ran
    cases same
    exact .add curr addr ls found rfl rfl
  | .removeLock curr addr =>
    obtain ⟨ls, found, same⟩ := Option.bind_eq_some_iff.mp ran
    cases same
    exact .remove curr addr ls found rfl rfl

theorem Ages.mem {old new : OrdMap ThreadId VectorClock} (ages : Ages old new) (here : t ∈ old) : t ∈ new := by
  obtain ⟨vc, found⟩ := Option.isSome_iff_exists.mp (Std.ExtTreeMap.mem_iff_isSome_getElem?.mp here)
  obtain ⟨vc', later, -⟩ := ages t vc found
  exact Std.ExtTreeMap.mem_iff_isSome_getElem?.mpr (by rw [later]; rfl)

namespace LocksOk

/-- A lock operation of one thread, which the lock sets of the others do not see. -/
theorem operation {ls : LockSet} (ok : LocksOk sync h) (known : t ∈ sync.currLsMap)
    (locks : next.currLsMap = sync.currLsMap.insert t ls) (snapshot : Snapshot (h ++ [x]) t (h.length + 1) ls)
    (own : ∀ u l, x = .lock u l ∨ x = .unlock u l → u = t)
    (counted : next.currLockVersion = (h ++ [x]).countP Happening.isLock) (ages : Ages sync.currVcMap next.currVcMap) :
    LocksOk next (h ++ [x]) where
  snapshots := by
    intro u ls' found
    rw [List.length_append, List.length_singleton]
    rw [locks, getElem?_insert_thread] at found
    split at found
    · next same =>
      cases found
      exact same ▸ snapshot
    · next other =>
      exact (ok.snapshots u ls' found).other (fun l same => other (own u l (Or.inl same)).symm)
        fun l same => other (own u l (Or.inr same)).symm
  version := counted
  lockers := by
    intro u l member
    rw [locks, Std.ExtTreeMap.mem_insert]
    rcases List.mem_append.mp member with member | member
    · exact Or.inr (ok.lockers u l member)
    · have same := own u l (Or.inl (List.mem_singleton.mp member).symm)
      exact Or.inl (by simp [same])
  clocked := by
    intro u held
    rw [locks, Std.ExtTreeMap.mem_insert, Nat.compare_eq_eq] at held
    rcases held with rfl | held
    · exact Ages.mem ages (ok.clocked _ known)
    · exact Ages.mem ages (ok.clocked u held)

theorem step {events : List Happening} (ok : LocksOk sync h) (stepped : LockStep sync next events)
    (ages : Ages sync.currVcMap next.currVcMap) : LocksOk next (h ++ events) := by
  cases stepped with
  | start t fresh clocked locks version =>
    rw [List.append_nil]
    have unlocked : ∀ l, .lock t l ∉ h := fun l member => fresh (ok.clocked t (ok.lockers t l member))
    constructor
    case snapshots =>
      intro u ls found
      rw [locks, getElem?_insert_thread] at found
      split at found
      · next same =>
        cases found
        exact same ▸ Snapshot.empty unlocked
      · exact ok.snapshots u ls found
    case version => exact version.trans ok.version
    case lockers =>
      intro u l member
      rw [locks, Std.ExtTreeMap.mem_insert]
      exact Or.inr (ok.lockers u l member)
    case clocked =>
      intro u held
      rw [locks, Std.ExtTreeMap.mem_insert, Nat.compare_eq_eq] at held
      rcases held with rfl | held
      · exact clocked
      · exact Ages.mem ages (ok.clocked u held)
  | add t l ls found locks version =>
    apply ok.operation (Std.ExtTreeMap.mem_iff_isSome_getElem?.mpr (by rw [found]; rfl)) locks _ _ _ ages
    · rw [ok.version]
      exact (ok.snapshots t ls found).lock l
    · rintro u l' (same | same)
      · cases same
        rfl
      · cases same
    · rw [version, ok.version, List.countP_append]
      rfl
  | remove t l ls found locks version =>
    apply ok.operation (Std.ExtTreeMap.mem_iff_isSome_getElem?.mpr (by rw [found]; rfl)) locks _ _ _ ages
    · exact (ok.snapshots t ls found).unlock l
    · rintro u l' (same | same)
      · cases same
      · cases same
        rfl
    · rw [version, ok.version, List.countP_append]
      rfl
  | none locks version =>
    rw [List.append_nil]
    refine ⟨fun u ls found => ok.snapshots u ls (locks ▸ found), version.trans ok.version, fun u l member => ?_,
      fun u held => Ages.mem ages (ok.clocked u (locks ▸ held))⟩
    rw [locks]
    exact ok.lockers u l member

/-- An access. -/
theorem access (ok : LocksOk sync h) : LocksOk sync (h ++ [.access a]) where
  snapshots := by
    intro u ls found
    rw [List.length_append, List.length_singleton]
    exact (ok.snapshots u ls found).other (by simp) (by simp)
  version := by
    rw [ok.version, List.countP_append]
    rfl
  lockers := by
    intro u l member
    rcases List.mem_append.mp member with member | member
    · exact ok.lockers u l member
    · cases List.mem_singleton.mp member
  clocked := ok.clocked

end LocksOk

namespace ClocksOk

theorem step (ok : ClocksOk sync h) (ages : Ages sync.currVcMap next.currVcMap) : ClocksOk next (h ++ happenings e) where
  current := by
    intro a member
    rcases List.mem_append.mp member with member | member
    · obtain ⟨vc, now, below⟩ := ok.current a member
      obtain ⟨vc', later, grown⟩ := ages a.thdId vc now
      exact ⟨vc', later, VectorClock.happensBefore_trans below grown⟩
    · cases e <;> simp [happenings] at member
  ordered := by
    refine List.pairwise_append.mpr ⟨ok.ordered, ?_, ?_⟩
    · cases e <;> simp [happenings]
    · intro x _ y member a b _ access
      subst access
      cases e <;> simp [happenings] at member

/-- A new access at the current clock. -/
theorem access (ok : ClocksOk sync h) (now : sync.currVcMap[a.thdId]? = some a.vc) : ClocksOk sync (h ++ [.access a]) where
  current := by
    intro b member
    rcases List.mem_append.mp member with member | member
    · exact ok.current b member
    · cases List.mem_singleton.mp member
      exact ⟨a.vc, now, a.vc.happensBefore_refl⟩
  ordered := by
    refine List.pairwise_append.mpr ⟨ok.ordered, List.pairwise_singleton _ _, ?_⟩
    rintro x member y single b c rfl rfl same
    cases List.mem_singleton.mp single
    obtain ⟨vc, now', below⟩ := ok.current b member
    rw [same, now] at now'
    cases now'
    exact below

end ClocksOk

end Sync

section Sums
variable {p next : PredictorNew} {n : ℕ} {place : Option ℕ}

theorem clocksOf_append : clocksOf (calls ++ [⟨place, d, n⟩]) k =
    if n = k then clocksOf calls k ++ [(d.vc, d.thdClk)] else clocksOf calls k := by
  rw [clocksOf, List.filter_append, List.map_append]
  split
  · next same => simp [same, clocksOf]
  · next other => simp [other, clocksOf]

theorem SumsOk.passed (ok : SumsOk p calls) (passed : p.Passed next d n) (alive : d.metaId ∈ p.accHistos) :
    SumsOk next (calls ++ [⟨place, d, n⟩]) := by
  obtain ⟨a, stored, about, pushed⟩ := passed.summary
  have unused : p.accSums[n]? = none → clocksOf calls n = [] := by
    intro missing
    rw [clocksOf, List.map_eq_nil_iff, List.filter_eq_nil_iff]
    intro call made same
    obtain ⟨b, found, -⟩ := ok.about call made
    rw [of_decide_eq_true same] at found
    exact nomatch missing.symm.trans found
  constructor
  case listed =>
    intro m live t i
    have live' : m ∈ p.accHistos := ((passed.live m).mp live).elim (fun same => same ▸ alive) id
    rw [passed.sums, ok.listed m live' t i]
    by_cases own : i = n
    · subst own
      simp only [stored, Option.some.injEq, exists_eq_left', true_and]
      cases old : p.accSums[i]? with
      | none => simp [about.metaId, about.thdId, DynAcc.access, eq_comm]
      | some b =>
        obtain ⟨tinfo, kept⟩ := passed.same b old
        cases stored.symm.trans kept
        simp
    · rw [passed.others i own]
      exact or_iff_left fun new => own new.1
  case tinfo =>
    intro i b found
    rw [clocksOf_append]
    by_cases own : n = i
    · subst own
      cases stored.symm.trans found
      rw [if_pos rfl, pushed, List.foldl_append]
      cases old : p.accSums[n]? with
      | none =>
        rw [unused old]
        rfl
      | some b =>
        rw [← ok.tinfo n b old]
        rfl
    · rw [if_neg own]
      exact ok.tinfo i b (passed.others i (Ne.symm own) ▸ found)
  case nonempty =>
    intro i b found
    by_cases own : i = n
    · subst own
      cases stored.symm.trans found
      rw [pushed]
      exact pushClock_ne_nil _ _
    · exact ok.nonempty i b (passed.others i own ▸ found)
  case about =>
    intro call made
    rcases List.mem_append.mp made with made | made
    · obtain ⟨b, found, about⟩ := ok.about call made
      by_cases own : call.accSum = n
      · rw [own] at found ⊢
        obtain ⟨tinfo, kept⟩ := passed.same b found
        exact ⟨_, kept, ⟨⟨about.metaId, about.thdId, about.type, about.inst⟩, about.fls⟩⟩
      · exact ⟨b, (passed.others _ own).trans found, about⟩
    · cases List.mem_singleton.mp made
      exact ⟨a, stored, about⟩
  case wf => exact passed.wf

/-- Only the table of the last accesses changes. -/
theorem SumsOk.histos (ok : SumsOk p calls) {accHistos : OrdMap MetaId AccHisto}
    (tables : ∀ m ∈ accHistos, ∀ t, ({ p with accHistos := accHistos } : PredictorNew).sumsOf m t = p.sumsOf m t)
    (alive : ∀ m ∈ accHistos, m ∈ p.accHistos ∨ ∀ (s : ℕ) a, p.accSums[s]? = some a → a.metaId ≠ m)
    (fresh : ∀ m ∈ accHistos, m ∉ p.accHistos → ∀ t, p.sumsOf m t = []) :
    SumsOk { p with accHistos := accHistos } calls := by
  refine ⟨fun m live t s => ?_, ok.tinfo, ok.nonempty, ok.about, ok.wf⟩
  rw [tables m live t]
  rcases alive m live with old | none_made
  · exact ok.listed m old t s
  · by_cases old : m ∈ p.accHistos
    · exact ok.listed m old t s
    · rw [fresh m live old t]
      refine iff_of_false List.not_mem_nil ?_
      rintro ⟨a, found, same, -⟩
      exact none_made s a found same

end Sums

section Recent
variable {lastOf lastOf' : MetaId → ThreadId → Option ℕ} {ri : RecentInfo} {e : Entry} {n : ℕ}

theorem placesOf_append : placesOf (h ++ [x]) t = placesOf h t ++ if x.isAccessOf t then [h.length] else [] := by
  have within : ∀ i ∈ List.range h.length, (h ++ [x])[i]?.any (·.isAccessOf t) = h[i]?.any (·.isAccessOf t) := by
    intro i member
    rw [List.getElem?_append_left (List.mem_range.mp member)]
  rw [placesOf, List.length_append, List.length_singleton, List.range_succ, List.filter_append,
    List.filter_congr within, List.filter_singleton, List.getElem?_concat_length, Option.any_some, cond_eq_ite]
  rfl

theorem lt_of_mem_placesOf (here : (placesOf h t)[k]? = some i) : i < h.length :=
  List.mem_range.mp (List.mem_of_mem_filter (List.mem_of_getElem? here))

theorem mem_placesOf : i ∈ placesOf h t ↔ ∃ a, h[i]? = some (.access a) ∧ a.thdId = t := by
  rw [placesOf, List.mem_filter, List.mem_range, Option.any_eq_true]
  constructor
  · rintro ⟨-, x, found, passed⟩
    cases x with
    | access a => exact ⟨a, found, of_decide_eq_true passed⟩
    | lock => exact nomatch passed
    | unlock => exact nomatch passed
  · rintro ⟨a, found, same⟩
    exact ⟨(List.getElem?_eq_some_iff.mp found).1, _, found, decide_eq_true same⟩

theorem placesOf_nodup : (placesOf h t).Nodup := List.nodup_range.filter _

theorem EntryOk.append (ok : EntryOk h calls t e i) (bound : i < h.length) : EntryOk (h ++ [x]) calls t e i := by
  obtain ⟨a, found, about⟩ := ok.access
  exact ⟨⟨a, (List.getElem?_append_left bound).trans found, about⟩, ok.ls.append bound.le, ok.accSum⟩

/-- A call for another place. -/
theorem EntryOk.other (ok : EntryOk h calls t e k) (apart : k ≠ i) : EntryOk h (calls ++ [⟨some i, d, n⟩]) t e k := by
  refine ⟨ok.access, ok.ls, fun s => ?_⟩
  rw [ok.accSum]
  simp only [List.mem_append, List.mem_singleton]
  constructor
  · rintro ⟨call, made, place⟩
    exact ⟨call, Or.inl made, place⟩
  · rintro ⟨call, made | rfl, place, same⟩
    · exact ⟨call, made, place, same⟩
    · exact absurd (Option.some.inj place).symm apart

namespace RecentOk

/-- Something happens that is no access of the thread. -/
theorem extend (ok : RecentOk h lastOf calls t ri) (other : x.isAccessOf t = false)
    (same : ∀ m, lastOf' m t = lastOf m t) : RecentOk (h ++ [x]) lastOf' calls t ri := by
  have places : placesOf (h ++ [x]) t = placesOf h t := by
    rw [placesOf_append, other]
    exact List.append_nil _
  refine ⟨places ▸ ok.length, fun k e i found place => ?_, fun m k => ?_⟩
  · rw [places] at place
    exact (ok.entries k e i found place).append (lt_of_mem_placesOf place)
  · rw [places, ok.raw m k, same m]

/-- The entry of a new access. -/
theorem record {ls : LockSet} (ok : RecentOk h lastOf calls t ri) (own : a.thdId = t) (now : Snapshot h t h.length ls)
    (last : ∀ m i, lastOf m t = some i → i < h.length) (unpassed : ¬Passed calls h.length) :
    RecentOk (h ++ [.access a]) (fun m u => if m = a.metaId ∧ u = t then some h.length else lastOf m u) calls t
      { entryVec := ri.entryVec ++ [⟨a.thdClk, none, a.vc, ls, a.metaId⟩]
        rawEntryIndex := ri.rawEntryIndex.insert a.metaId ri.entryVec.length } := by
  have places : placesOf (h ++ [.access a]) t = placesOf h t ++ [h.length] := by
    rw [placesOf_append, Happening.isAccessOf, decide_eq_true own]
    rfl
  constructor
  case length => rw [places, List.length_append, List.length_append, ok.length]; rfl
  case entries =>
    intro k e i found place
    rw [places] at place
    rcases Nat.lt_or_ge k ri.entryVec.length with old | new
    · rw [List.getElem?_append_left old] at found
      rw [List.getElem?_append_left (ok.length ▸ old)] at place
      exact (ok.entries k e i found place).append (lt_of_mem_placesOf place)
    · have bound := (List.getElem?_eq_some_iff.mp found).1
      rw [List.length_append, List.length_singleton] at bound
      have last_one : k = ri.entryVec.length := by omega
      subst last_one
      rw [List.getElem?_concat_length] at found
      rw [ok.length, List.getElem?_concat_length] at place
      cases found
      cases place
      refine ⟨⟨a, List.getElem?_concat_length, rfl, own, rfl, rfl⟩, now.append le_rfl, fun n => ?_⟩
      refine iff_of_false nofun ?_
      rintro ⟨call, made, place, -⟩
      exact unpassed ⟨call, made, place⟩
  case raw =>
    intro m k
    rw [places, getElem?_insert_thread]
    by_cases own_meta : a.metaId = m
    · rw [if_pos own_meta]
      simp only [own_meta, true_and, if_true, Option.some.injEq, exists_eq_left']
      rcases Nat.lt_trichotomy k (placesOf h t).length with old | rfl | beyond
      · rw [List.getElem?_append_left old, ok.length]
        exact iff_of_false old.ne' fun place => (lt_of_mem_placesOf place).false
      · rw [List.getElem?_concat_length, ok.length]
        exact iff_of_true rfl rfl
      · rw [List.getElem?_eq_none (by simp; omega), ok.length]
        exact iff_of_false beyond.ne nofun
    · rw [if_neg own_meta, ok.raw m k]
      simp only [Ne.symm own_meta, false_and, if_false]
      apply exists_congr
      intro i
      apply and_congr_right
      intro lastOf
      have bound := last m i lastOf
      rcases Nat.lt_trichotomy k (placesOf h t).length with old | rfl | beyond
      · rw [List.getElem?_append_left old]
      · rw [List.getElem?_concat_length, List.getElem?_eq_none le_rfl]
        exact iff_of_false nofun fun same => bound.ne (Option.some.inj same).symm
      · rw [List.getElem?_eq_none beyond.le, List.getElem?_eq_none (by simp; omega)]

/-- Calls for other threads. -/
theorem other (ok : RecentOk h lastOf calls t ri) (apart : i ∉ placesOf h t) :
    RecentOk h lastOf (calls ++ [⟨some i, d, n⟩]) t ri := by
  refine ⟨ok.length, fun k e i' found place => (ok.entries k e i' found place).other ?_, ok.raw⟩
  rintro rfl
  exact apart (List.mem_of_getElem? place)

/-- The entry of the last access is there, and waits for its summary. -/
theorem waiting (ok : RecentOk h lastOf calls t ri) (last : lastOf m t = some i) (here : i ∈ placesOf h t)
    (unpassed : ¬Passed calls i) : ∃ k e, ri.rawEntryIndex[m]? = some k ∧ ri.entryVec[k]? = some e ∧
      (placesOf h t)[k]? = some i ∧ e.accSum = none := by
  obtain ⟨k, place⟩ := List.getElem?_of_mem here
  obtain ⟨bound, -⟩ := List.getElem?_eq_some_iff.mp place
  rw [← ok.length] at bound
  refine ⟨k, _, (ok.raw m k).mpr ⟨i, last, place⟩, List.getElem?_eq_getElem bound, place, ?_⟩
  have entry := ok.entries k _ i (List.getElem?_eq_getElem bound) place
  apply Option.eq_none_iff_forall_ne_some.mpr
  intro s given
  obtain ⟨call, made, place, -⟩ := (entry.accSum s).mp given
  exact unpassed ⟨call, made, place⟩

theorem matured (ok : RecentOk h lastOf calls t ri) (place : (placesOf h t)[k]? = some i)
    (found : ri.entryVec[k]? = some e) (unpassed : ¬Passed calls i) :
    RecentOk h lastOf (calls ++ [⟨some i, d, n⟩]) t
      { ri with entryVec := ri.entryVec.set k { e with accSum := some n } } := by
  refine ⟨(List.length_set ..).trans ok.length, fun k' e' i' found' place' => ?_, ok.raw⟩
  obtain ⟨bound, -⟩ := List.getElem?_eq_some_iff.mp found
  rw [List.getElem?_set] at found'
  split at found'
  · next same =>
    subst same
    cases found'
    cases place.symm.trans place'
    have entry := ok.entries k e i found place
    refine ⟨entry.access, entry.ls, fun s => ?_⟩
    simp only [List.mem_append, List.mem_singleton, Option.some.injEq]
    constructor
    · rintro rfl
      exact ⟨_, Or.inr rfl, rfl, rfl⟩
    · rintro ⟨call, made | rfl, at_place, rfl⟩
      · exact absurd ⟨call, made, at_place⟩ unpassed
      · rfl
  · next other =>
    refine (ok.entries k' e' i' found' place').other ?_
    rintro rfl
    exact other ((List.getElem?_inj (List.getElem?_eq_some_iff.mp place).1 placesOf_nodup).mp (place.trans place'.symm))

end RecentOk

end Recent

end Maple.Idiom.Predictor
