import Maple.Pintool.MultiLockRecords
import Maple.Pintool.GateClocks
import Maple.Race.SameEpoch

/-! MultiLock against hybrid races. Every access is covered by a record of the same
epoch with a smaller lockset and at least as strong a kind, as long as no read is
skipped without such a record. -/
namespace Maple.Pintool
open Race

def Held (tr : List Hook) (i : ℕ) (t : ThreadId) (addr : Address) : Prop :=
  (progressAt tr i).holder[addr]? = some t

instance (tr : List Hook) (i : ℕ) (t : ThreadId) (addr : Address) : Decidable (Held tr i t addr) :=
  inferInstanceAs (Decidable (_ = _))

/-- Two accesses by different threads, one of them a write, that fork and join do
not order and that were made under disjoint locksets. -/
def Hybrid (acc : RaceEventType → ℕ → ThreadId → InstId → Prop) (tr : List Hook) (i j : ℕ) : Prop :=
  ∃ k l t u inst inst', acc k i t inst ∧ acc l j u inst' ∧ t ≠ u ∧ Conflict k l ∧
    ¬ forkJoinOrder.HB tr i j ∧ ¬ forkJoinOrder.HB tr j i ∧ ∀ a, Held tr i t a → ¬ Held tr j u a

theorem Hybrid.symm {acc : RaceEventType → ℕ → ThreadId → InstId → Prop} {tr : List Hook} {i j : ℕ}
    (hybrid : Hybrid acc tr i j) : Hybrid acc tr j i := by
  obtain ⟨k, l, t, u, inst, inst', first, second, other, conflict, ahead, behind, apart⟩ := hybrid
  exact ⟨l, k, u, t, inst', inst, second, first, other.symm, conflict.symm, behind, ahead,
    fun a held also => apart a also held⟩

/-- A record is that of an access made before position `n`. -/
def Stands (tr : List Hook) (epoch : Stamps) (acc : ℕ → ThreadId → InstId → Prop) (n : ℕ) (t : ThreadId)
    (elp : Elp) : Prop :=
  elp.1.tid = t ∧ ∃ i < n, (∃ inst, acc i t inst) ∧ epoch i = some (t, elp.1.clock) ∧
    ∀ a, a ∈ elp.2 ↔ Held tr i t a

structure MultiLockInv (unitSize : Address) (tr : List Hook) (epoch : Stamps) (n : ℕ) (x : Address)
    (m : MultiLockMeta) : Prop where
  stands : ∀ k t, ∀ elp ∈ m.els k t, Stands tr epoch (Processed gateOpen unitSize tr k x) n t elp
  covered : ∀ k, ∀ i < n, ∀ t inst, Processed gateOpen unitSize tr k x i t inst →
    ∃ l, (l = .write ∨ l = k) ∧ ∃ elp ∈ m.els l t, epoch i = some (t, elp.1.clock) ∧
      ∀ a ∈ elp.2, Held tr i t a
  named : ∀ k t, ∀ elp ∈ m.els k t, ∃ inst, m.insts k (instKey elp) = some inst
  racy : m.racy = true ↔
    ∃ j < n, ∃ i < j, Hybrid (fun k => Processed gateOpen unitSize tr k x) tr i j

section Invariant
variable {unitSize : Address} {tr : List Hook} {epoch epoch' : Stamps} {n : ℕ} {x : Address}
  {m m' m'' : MultiLockMeta} {b : DetectorBase (OrdMap ThreadId Lockset)} {curr t : ThreadId}
  {inst : InstId} {addr size : Address} {currVc : VectorClock} {currLs : Lockset} {k l : RaceEventType}
  {elp : Elp} {acc : ℕ → ThreadId → InstId → Prop}

theorem Stands.later (stands : Stands tr epoch acc n t elp) : Stands tr epoch acc (n + 1) t elp := by
  obtain ⟨tid, i, bound, rest⟩ := stands
  exact ⟨tid, i, Nat.lt_succ_of_lt bound, rest⟩

theorem MultiLockInv.blank : MultiLockInv unitSize tr epoch 0 x {} where
  stands k t elp member := by
    cases k <;> simp [MultiLockMeta.els, MultiLockMeta.readerEls, MultiLockMeta.writerEls] at member
  covered k i bound := absurd bound (Nat.not_lt_zero _)
  named k t elp member := by
    cases k <;> simp [MultiLockMeta.els, MultiLockMeta.readerEls, MultiLockMeta.writerEls] at member
  racy := by simp

theorem MultiLockInv.restamp (inv : MultiLockInv unitSize tr epoch n x m)
    (same : ∀ i < n, epoch' i = epoch i) : MultiLockInv unitSize tr epoch' n x m where
  stands k t elp member := by
    obtain ⟨tid, i, bound, access, stamp, locks⟩ := inv.stands k t elp member
    exact ⟨tid, i, bound, access, (same i bound).trans stamp, locks⟩
  covered k i bound t inst access := by
    obtain ⟨l, kind, elp, member, stamp, locks⟩ := inv.covered k i bound t inst access
    exact ⟨l, kind, elp, member, (same i bound).trans stamp, locks⟩
  named := inv.named
  racy := inv.racy

/-- A hook that adds neither an access nor a race. -/
theorem MultiLockInv.keep (inv : MultiLockInv unitSize tr epoch n x m)
    (covered : ∀ k t inst, Processed gateOpen unitSize tr k x n t inst →
      ∃ l, (l = .write ∨ l = k) ∧ ∃ elp ∈ m.els l t, epoch n = some (t, elp.1.clock) ∧
        ∀ a ∈ elp.2, Held tr n t a)
    (calm : (∃ i < n, Hybrid (fun k => Processed gateOpen unitSize tr k x) tr i n) → m.racy = true) :
    MultiLockInv unitSize tr epoch (n + 1) x m where
  stands k t elp member := (inv.stands k t elp member).later
  covered k i bound t inst access := by
    rcases Nat.lt_succ_iff_lt_or_eq.mp bound with earlier | rfl
    · exact inv.covered k i earlier t inst access
    · exact covered k t inst access
  named := inv.named
  racy := by
    rw [exists_lt_succ_iff, ← inv.racy]
    exact ⟨Or.inl, fun known => known.elim id calm⟩

theorem MultiLockInv.skip (inv : MultiLockInv unitSize tr epoch n x m)
    (none : ∀ k t inst, ¬ Processed gateOpen unitSize tr k x n t inst) :
    MultiLockInv unitSize tr epoch (n + 1) x m := by
  refine inv.keep (fun k t inst access => absurd access (none k t inst)) ?_
  rintro ⟨i, _, k, l, t, u, inst, inst', _, access, _⟩
  exact absurd access (none l u inst')

theorem clock_of_equal {e : Epoch} (same : e.equal currVc = true) (tid : e.tid = curr) :
    e.clock = currVc.getClock curr := by
  rw [← tid]
  exact ((Epoch.equal_iff _ _).mp same).2

/-- A skipped access takes part in no race that its covering record does not show. -/
theorem MultiLockInv.redundant (inv : MultiLockInv unitSize tr epoch n x m)
    (sync : SyncInv forkJoinOrder tr (n + 1) b epoch) (here : tr[n]? = some (l.hook curr inst addr size))
    (processed : Processed gateOpen unitSize tr l x n curr inst) (found : b.currVcMap[curr]? = some currVc)
    (stamp : epoch n = some (curr, currVc.getClock curr)) (live : curr ∉ (progressAt tr (n + 1)).joined)
    (locks : ∀ a, a ∈ currLs ↔ Held tr n curr a) (stronger : k = .write ∨ k = l)
    (member : elp ∈ m.els k curr) (covering : covers currVc currLs elp = true) :
    MultiLockInv unitSize tr epoch (n + 1) x m := by
  obtain ⟨same, smaller⟩ := Bool.and_eq_true_iff.mp covering
  rw [Lockset.isSubsetOf_iff] at smaller
  obtain ⟨tid, p, earlier, ⟨inst₀, before⟩, stamped, lockset⟩ := inv.stands k curr elp member
  have clock := clock_of_equal same tid
  refine inv.keep (fun k' t inst' access => ?_) ?_
  · obtain ⟨rfl, rfl, _⟩ := access.1.unique processed.1
    exact ⟨k, stronger, elp, member, by rw [stamp, clock], fun a inside => (locks a).mp (smaller a inside)⟩
  · rintro ⟨i, bound, k', l', t, u, inst', inst'', access, again, other, conflict, unordered, _, apart⟩
    obtain ⟨rfl, rfl, _⟩ := again.1.unique processed.1
    obtain ⟨d, first, acts⟩ := before.acting
    obtain ⟨f, between, actsOther⟩ := access.acting
    rw [clock] at stamped
    obtain ⟨behind, ahead⟩ := sync.unordered_of_same_epoch forkJoinOrder_hooks first here acts
      (thread_hook ..) earlier stamped (clockOf_of_vc found _) live between actsOther other bound
    have pair : Hybrid (fun k => Processed gateOpen unitSize tr k x) tr i p := by
      refine ⟨k', k, t, u, inst', inst₀, access, before, other, ?_, behind unordered, ahead,
        fun a held also => ?_⟩
      · rcases stronger with rfl | rfl
        · exact Or.inr rfl
        · exact conflict
      · exact apart a held ((locks a).mp (smaller a ((lockset a).mpr also)))
    rw [inv.racy]
    rcases Nat.lt_trichotomy i p with below | rfl | above
    · exact ⟨p, earlier, i, below, pair⟩
    · exact absurd (access.1.unique before.1).2.1 other
    · exact ⟨i, bound, p, above, pair.symm⟩

/-- An unseen stamp is that of an unordered access. -/
theorem unseen_iff_unordered (sync : SyncInv forkJoinOrder tr (n + 1) b epoch)
    (here : tr[n]? = some (l.hook curr inst addr size)) (found : b.currVcMap[curr]? = some currVc)
    {i s : ℕ} (bound : i < n) (stamp : epoch i = some (t, s)) :
    currVc.getClock t < s ↔ ¬ forkJoinOrder.HB tr i n := by
  have exact := sync.exact.exact stamp (.thread curr)
  simp only [DetectorBase.view, clockOf_of_vc found] at exact
  rw [forkJoinOrder_hooks.hb_access_iff here, ← forkJoinOrder_hooks.known_access here bound.ne, exact,
    Nat.not_le]

/-- The records that a check finds are those of accesses in a hybrid race. -/
theorem MultiLockInv.hybrid_iff (inv : MultiLockInv unitSize tr epoch n x m)
    (sync : SyncInv forkJoinOrder tr (n + 1) b epoch) (here : tr[n]? = some (l.hook curr inst addr size))
    (processed : Processed gateOpen unitSize tr l x n curr inst) (found : b.currVcMap[curr]? = some currVc)
    (locks : ∀ a, a ∈ currLs ↔ Held tr n curr a) :
    (∃ i < n, Hybrid (fun k => Processed gateOpen unitSize tr k x) tr i n) ↔
      ∃ k t, t ≠ curr ∧ Conflict k l ∧ ∃ elp ∈ m.els k t, currVc.getClock elp.1.tid < elp.1.clock ∧
        ∀ a ∈ elp.2, a ∉ currLs := by
  constructor
  · rintro ⟨i, bound, k, l', t, u, inst', inst'', access, again, other, conflict, unordered, _, apart⟩
    obtain ⟨rfl, rfl, _⟩ := again.1.unique processed.1
    obtain ⟨k', stronger, elp, member, stamp, locked⟩ := inv.covered k i bound t inst' access
    have tid := (inv.stands k' t elp member).1
    refine ⟨k', t, other, ?_, elp, member, ?_, fun a inside held => ?_⟩
    · rcases stronger with rfl | rfl
      · exact Or.inl rfl
      · exact conflict
    · rw [tid]
      exact (unseen_iff_unordered sync here found bound stamp).mpr unordered
    · exact apart a (locked a inside) ((locks a).mp held)
  · rintro ⟨k, t, other, conflict, elp, member, above, apart⟩
    obtain ⟨tid, i, bound, ⟨inst', access⟩, stamp, lockset⟩ := inv.stands k t elp member
    rw [tid] at above
    have unordered := (unseen_iff_unordered sync here found bound stamp).mp above
    refine ⟨i, bound, k, l, t, curr, inst', inst, access, processed, other, conflict, unordered,
      fun backwards => absurd (Causality.hb_lt backwards) (Nat.lt_asymm bound), fun a held also => ?_⟩
    exact apart a ((lockset a).mpr held) ((locks a).mpr also)

/-- Records keep their entries, or an equivalent new record takes them. -/
theorem MultiLockInv.named_record (inv : MultiLockInv unitSize tr epoch n x m)
    (updated : Updated l curr currVc currLs inst m m') (k : RaceEventType) (t : ThreadId)
    (elp : Elp) (member : elp ∈ m'.els k t) : ∃ inst', m'.insts k (instKey elp) = some inst' := by
  rw [updated.insts]
  split
  · exact ⟨inst, rfl⟩
  · next other =>
    by_cases own : t = curr
    · subst own
      rcases (updated.els k elp).mp member with old | ⟨rfl, rfl⟩
      · exact inv.named k t elp old
      · exact absurd ⟨rfl, rfl⟩ other
    · rw [updated.others k t own] at member
      exact inv.named k t elp member

/-- An access that is looked at and recorded. -/
theorem MultiLockInv.record (inv : MultiLockInv unitSize tr epoch n x m)
    (processed : Processed gateOpen unitSize tr l x n curr inst)
    (stamp : epoch n = some (curr, currVc.getClock curr))
    (locks : ∀ a, a ∈ currLs ↔ Held tr n curr a) (updated : Updated l curr currVc currLs inst m m')
    (els : m''.els = m'.els)
    (insts : m''.insts = m'.insts) (marked : m''.racy = true ↔ m.racy = true ∨
      ∃ i < n, Hybrid (fun k => Processed gateOpen unitSize tr k x) tr i n) :
    MultiLockInv unitSize tr epoch (n + 1) x m'' := by
  have fresh : Stands tr epoch (Processed gateOpen unitSize tr l x) (n + 1) curr
      (Epoch.make curr (currVc.getClock curr), currLs) :=
    ⟨rfl, n, Nat.lt_succ_self n, ⟨inst, processed⟩, stamp, locks⟩
  refine ⟨?_, ?_, ?_, ?_⟩
  · intro k t elp member
    rw [els] at member
    by_cases own : t = curr
    · subst own
      rcases (updated.els k elp).mp member with old | ⟨rfl, rfl⟩
      · exact (inv.stands k t elp old).later
      · exact fresh
    · rw [updated.others k t own] at member
      exact (inv.stands k t elp member).later
  · intro k i bound t inst' access
    simp only [els]
    rcases Nat.lt_succ_iff_lt_or_eq.mp bound with earlier | rfl
    · obtain ⟨k', stronger, elp, member, stamped, locked⟩ := inv.covered k i earlier t inst' access
      by_cases own : t = curr
      · subst own
        exact ⟨k', stronger, elp, (updated.els k' elp).mpr (Or.inl member), stamped, locked⟩
      · exact ⟨k', stronger, elp, by rw [updated.others k' t own]; exact member, stamped, locked⟩
    · obtain ⟨rfl, rfl, _⟩ := access.1.unique processed.1
      exact ⟨k, Or.inr rfl, _, updated.added, stamp, fun a inside => (locks a).mp inside⟩
  · intro k t elp member
    rw [els] at member
    rw [insts]
    exact inv.named_record updated k t elp member
  · rw [marked, exists_lt_succ_iff, inv.racy]

/-- The check against the other threads' records of one kind. -/
theorem MultiLockInv.check (inv : MultiLockInv unitSize tr epoch n x m)
    (updated : Updated l curr currVc currLs inst m m') (k : RaceEventType)
    (report : ThreadId → InstId → RaceReport) :
    ∃ raced calls, MultiLock.checkEls curr currVc currLs (m'.insts k) report
        (MultiLock.otherEls curr (m'.elsMap k)) = some (raced, calls) ∧
      (raced = true ↔ ∃ t, t ≠ curr ∧ ∃ elp ∈ m.els k t, currVc.getClock elp.1.tid < elp.1.clock ∧
        ∀ a ∈ elp.2, a ∉ currLs) := by
  have member_iff : ∀ elp, elp ∈ MultiLock.otherEls curr (m'.elsMap k) ↔ ∃ t ≠ curr, elp ∈ m.els k t := by
    intro elp
    rw [mem_otherEls]
    refine exists_congr fun t => and_congr_right fun other => ?_
    rw [← updated.others k t other, MultiLockMeta.els_eq]
  obtain ⟨raced, calls, ran, marked⟩ := checkEls_spec curr currVc currLs (m'.insts k) report
    (MultiLock.otherEls curr (m'.elsMap k)) (by
      intro elp member
      obtain ⟨t, other, member⟩ := (member_iff elp).mp member
      exact inv.named_record updated k t elp (by rw [updated.others k t other]; exact member))
  refine ⟨raced, calls, ran, marked.trans ?_⟩
  constructor
  · rintro ⟨elp, member, hit⟩
    obtain ⟨t, other, member⟩ := (member_iff elp).mp member
    exact ⟨t, other, elp, member, hit⟩
  · rintro ⟨t, other, elp, member, hit⟩
    exact ⟨elp, (member_iff elp).mpr ⟨t, other, member⟩, hit⟩

end Invariant

/-- The detector meets the condition at one unit of an access. -/
def CarefulAt (d : Detector (OrdMap ThreadId Lockset) MultiLockMeta) (k : RaceEventType) (curr : ThreadId)
    (x : Address) : Prop :=
  gate d.toDetectorBase = true → ∀ currVc ∈ d.currVcMap[curr]?,
    (d.metaTable[x]?.getD {}).Careful k curr currVc (MultiLock.locksetOf d.own curr)

instance (m : MultiLockMeta) (k : RaceEventType) (curr : ThreadId) (currVc : VectorClock)
    (currLs : Lockset) : Decidable (m.Careful k curr currVc currLs) :=
  decidable_of_iff ((m.skips curr currVc currLs k = true → k = .read →
      (m.readerEls curr ++ m.writerEls curr).any (covers currVc currLs) = true) ∧
    m.Spares k curr currVc currLs)
    ⟨fun parts => ⟨parts.1, parts.2⟩, fun whole => ⟨whole.1, whole.2⟩⟩

instance (d : Detector (OrdMap ThreadId Lockset) MultiLockMeta) (k : RaceEventType) (curr : ThreadId)
    (x : Address) : Decidable (CarefulAt d k curr x) := by
  unfold CarefulAt
  infer_instance

/-- The same for all units that a hook accesses. -/
def CarefulSteps (unitSize : Address) (d : Detector (OrdMap ThreadId Lockset) MultiLockMeta) (e : Hook) :
    Prop := e.ForUnits unitSize (CarefulAt d)

instance (unitSize : Address) (d : Detector (OrdMap ThreadId Lockset) MultiLockMeta) (e : Hook) :
    Decidable (CarefulSteps unitSize d e) := inferInstanceAs (Decidable (e.ForUnits ..))

/-- `lockset_map_` has the mutexes that each thread holds. -/
def Holds (p : Progress) (locksetMap : OrdMap ThreadId Lockset) : Prop :=
  ∀ (t : ThreadId) (a : Address), a ∈ MultiLock.locksetOf locksetMap t ↔ p.holder[a]? = some t

theorem not_carries_forkJoin (addr : Address) : ¬ Carries forkJoinOrder addr :=
  fun ⟨_, _, _, impossible⟩ => nomatch impossible

theorem forkJoin_mutexLock (curr : ThreadId) (addr : Address) (c : Channel) :
    (forkJoinOrder.acquires (.afterPthreadMutexLock curr addr) c ↔ c = .thread curr) ∧
    (forkJoinOrder.releases (.afterPthreadMutexLock curr addr) c ↔ c = .thread curr) := by
  simp only [forkJoinOrder, syncOrder_lock]
  constructor <;> constructor
  · rintro ⟨same | rfl, t, other⟩
    · exact same
    · cases other
  · rintro rfl
    exact ⟨Or.inl rfl, curr, rfl⟩
  · exact fun both => both.1
  · rintro rfl
    exact ⟨rfl, curr, rfl⟩

theorem forkJoin_mutexUnlock (curr : ThreadId) (addr : Address) (c : Channel) :
    (forkJoinOrder.acquires (.beforePthreadMutexUnlock curr addr) c ↔ c = .thread curr) ∧
    (forkJoinOrder.releases (.beforePthreadMutexUnlock curr addr) c ↔ c = .thread curr) := by
  simp only [forkJoinOrder, syncOrder_unlock]
  constructor <;> constructor
  · exact fun both => both.1
  · rintro rfl
    exact ⟨rfl, curr, rfl⟩
  · rintro ⟨same | rfl, t, other⟩
    · exact same
    · cases other
  · rintro rfl
    exact ⟨Or.inl rfl, curr, rfl⟩

theorem locksetOf_insert (map : OrdMap ThreadId Lockset) (curr t : ThreadId) (ls : Lockset) :
    MultiLock.locksetOf (map.insert curr ls) t = if curr = t then ls else MultiLock.locksetOf map t := by
  simp only [MultiLock.locksetOf, getElem?_insert_thread]
  split <;> rfl

/-- Taking a mutex adds it to the lockset of its new holder, if it is not there yet. -/
theorem Holds.lock {p : Progress} {map : OrdMap ThreadId Lockset} {curr : ThreadId} {addr : Address}
    (holds : Holds p map) (free : p.holder[addr]? = none ∨ p.holder[addr]? = some curr) :
    Holds (p.next (.afterPthreadMutexLock curr addr))
      (map.insert curr ((MultiLock.locksetOf map curr).add addr)) := by
  intro t a
  simp only [Progress.next, getElem?_insert_address, locksetOf_insert]
  split
  · next own =>
      subst own
      rw [Lockset.mem_add, holds curr a]
      by_cases same : addr = a
      · simp [same]
      · simp [same]
  · next other =>
      rw [holds t a]
      split
      · next same =>
          subst same
          rcases free with free | free <;> simp [free, other]
      · rfl

/-- An unlock that frees its mutex removes it. -/
theorem Holds.unlock {p : Progress} {map : OrdMap ThreadId Lockset} {curr : ThreadId} {addr : Address}
    (holds : Holds p map) (held : p.holder[addr]? = some curr) (frees : p.depthOf addr ≤ 1) :
    Holds (p.next (.beforePthreadMutexUnlock curr addr))
      (map.insert curr ((MultiLock.locksetOf map curr).remove addr)) := by
  intro t a
  simp only [Progress.next, Progress.holder_unlock, frees, and_true, locksetOf_insert]
  split
  · next own =>
      subst own
      rw [Lockset.mem_remove, holds curr a]
      by_cases same : addr = a
      · simp [same]
      · simp [same]
  · next other =>
      rw [holds t a]
      split
      · next same =>
          subst same
          simp [held, other]
      · rfl

section Holding
variable {G : Type} {tr : List Hook} {n : ℕ} {epoch : Stamps} {b : DetectorBase G} {curr : ThreadId}
  {addr : Address}

/-- Without mutex edges a lock that only touches own members keeps the clocks exact. -/
theorem forkJoin_lock (sync : SyncInv forkJoinOrder tr n b epoch)
    (here : tr[n]? = some (.afterPthreadMutexLock curr addr))
    (admitted : (progressAt tr n).Admits (.afterPthreadMutexLock curr addr)) (own : G) :
    SyncInv forkJoinOrder tr (n + 1)
      { b with mutexMetaTable := ensureMeta {} b.mutexMetaTable addr, own := own } epoch := by
  refine sync.holding here (fun c => (forkJoin_mutexLock curr addr c).1)
    (fun c => (forkJoin_mutexLock curr addr c).2) (not_carries_forkJoin addr) rfl
    (fun a u => clockOf_ensure addr (.mutex a) u) rfl ⟨rfl, rfl⟩ ⟨rfl, rfl⟩ ?_
  intro a u held
  simp only [Progress.next, getElem?_insert_address] at held
  split at held
  · next same =>
      cases held
      exact Or.inr ⟨same.symm, admitted.1.1⟩
  · exact Or.inl held

theorem forkJoin_unlock (sync : SyncInv forkJoinOrder tr n b epoch)
    (here : tr[n]? = some (.beforePthreadMutexUnlock curr addr)) (own : G) :
    SyncInv forkJoinOrder tr (n + 1)
      { b with mutexMetaTable := ensureMeta {} b.mutexMetaTable addr, own := own } epoch := by
  refine sync.holding here (fun c => (forkJoin_mutexUnlock curr addr c).1)
    (fun c => (forkJoin_mutexUnlock curr addr c).2) (not_carries_forkJoin addr) rfl
    (fun a u => clockOf_ensure addr (.mutex a) u) rfl ⟨rfl, rfl⟩
    ⟨Progress.started_unlock _ _, Progress.joined_unlock _ _⟩ ?_
  intro a u held
  rw [Progress.next, Progress.holder_unlock] at held
  split at held
  · cases held
  · exact Or.inl held

/-- A join after which the joining thread enters a new epoch. -/
theorem forkJoin_joinTick {child : ThreadId} (sync : SyncInv forkJoinOrder tr n b epoch)
    (here : tr[n]? = some (.afterPthreadJoin curr child))
    (admitted : (progressAt tr n).Admits (.afterPthreadJoin curr child)) :
    ∃ joined vc, b.afterPthreadJoin curr child = some joined ∧ joined.currVcMap[curr]? = some vc ∧
      SyncInv forkJoinOrder tr (n + 1) (joined.setVc curr (vc.increment curr)) epoch ∧
      b.SameSettings (joined.setVc curr (vc.increment curr)) ∧ joined.own = b.own := by
  obtain ⟨joined, result, synced, settings, own⟩ := sync.join here admitted
    (forkJoinOrder_hooks.joinAcquires curr child) (forkJoinOrder_hooks.joinReleases curr child)
  have started : curr ∈ (progressAt tr (n + 1)).started := by
    rw [progressAt_succ here]
    exact admitted.1.1
  obtain ⟨vc, found⟩ := synced.present started
  exact ⟨joined, vc, result, found, synced.tick started found,
    ⟨settings.filter, settings.unitSize, settings.trackRacyInst⟩, own⟩

end Holding

theorem multiLock_tracks : multiLock.Tracks forkJoinOrder gateOpen Holds UnlocksFree where
  hooks := forkJoinOrder_hooks
  gate := gate_of_counted
  start holds := holds
  join {tr n b epoch curr child} here admitted sync holds := by
    obtain ⟨joined, vc, result, found, ticked, settings, own⟩ := forkJoin_joinTick sync here admitted
    refine ⟨joined.setVc curr (vc.increment curr), ?_, ticked, settings, ?_⟩
    · simp [multiLock, MultiLock.afterPthreadJoin, result, found]
    · rw [progressAt_succ here]
      exact (own ▸ holds : Holds (progressAt tr n) joined.own)
  lock {tr n b epoch curr addr} here admitted sync holds := by
    refine ⟨_, rfl, forkJoin_lock sync here admitted _, ⟨rfl, rfl, rfl⟩, ?_⟩
    rw [progressAt_succ here]
    exact holds.lock admitted.2
  unlock {tr n b epoch curr addr} frees here admitted sync holds := by
    refine ⟨_, rfl, forkJoin_unlock sync here _, ⟨rfl, rfl, rfl⟩, ?_⟩
    rw [progressAt_succ here]
    exact holds.unlock admitted.2 (frees n curr addr here)

/-- Conflicts of a read are with writes, those of a write with both kinds. -/
theorem exists_conflict_iff (l : RaceEventType) (P : RaceEventType → Prop) :
    (∃ k, Conflict k l ∧ P k) ↔ P .write ∨ l = .write ∧ P .read := by
  constructor
  · rintro ⟨_ | _, conflict, holds⟩
    · exact Or.inr ⟨conflict.resolve_left nofun, holds⟩
    · exact Or.inl holds
  · rintro (holds | ⟨rfl, holds⟩)
    · exact ⟨.write, Or.inl rfl, holds⟩
    · exact ⟨.read, Or.inr rfl, holds⟩

section Process
variable {unitSize : Address} {tr : List Hook} {epoch : Stamps} {n : ℕ} {x : Address}
  {m : MultiLockMeta} {b : DetectorBase (OrdMap ThreadId Lockset)} {curr : ThreadId} {inst : InstId}
  {addr size : Address} {currVc : VectorClock}

theorem MultiLockInv.read (inv : MultiLockInv unitSize tr epoch n x m)
    (sync : SyncInv forkJoinOrder tr (n + 1) b epoch)
    (here : tr[n]? = some (RaceEventType.read.hook curr inst addr size))
    (processed : Processed gateOpen unitSize tr .read x n curr inst)
    (found : b.currVcMap[curr]? = some currVc)
    (stamp : epoch n = some (curr, currVc.getClock curr)) (live : curr ∉ (progressAt tr (n + 1)).joined)
    (locks : ∀ a, a ∈ MultiLock.locksetOf b.own curr ↔ Held tr n curr a)
    (careful : m.Careful .read curr currVc (MultiLock.locksetOf b.own curr)) :
    ∃ next out, MultiLock.processRead b curr x m inst = some (next, out) ∧
      MultiLockInv unitSize tr epoch (n + 1) x next := by
  cases looked : m.skips curr currVc (MultiLock.locksetOf b.own curr) .read with
  | true =>
    have redundant : MultiLock.updateOnRead curr m currVc (MultiLock.locksetOf b.own curr) inst =
        some (m, true) := updateOn_redundant looked
    obtain ⟨elp, member, covering⟩ := List.any_eq_true.mp (careful.covered looked rfl)
    refine ⟨m, [], by simp [MultiLock.processRead, found, redundant], ?_⟩
    rcases List.mem_append.mp member with member | member
    · exact inv.redundant sync here processed found stamp live locks (Or.inr rfl) member covering
    · exact inv.redundant sync here processed found stamp live locks (Or.inl rfl) member covering
  | false =>
    let next := recordAs .read curr m currVc (MultiLock.locksetOf b.own curr) inst
    have recorded : MultiLock.updateOnRead curr m currVc (MultiLock.locksetOf b.own curr) inst =
        some (next, false) := updateOn_recorded looked careful.spares
    have updated : Updated .read curr currVc (MultiLock.locksetOf b.own curr) inst m next := recordAs_spec
    obtain ⟨raced, calls, ran, marked⟩ := inv.check updated .write
      (fun thdId writerInst => ⟨x, thdId, writerInst, .write, curr, inst, .read⟩)
    simp only [MultiLockMeta.insts, MultiLockMeta.elsMap] at ran
    refine ⟨{ next with
        racy := next.racy || raced
        raceInstSet := trackInst b.trackRacyInst next.raceInstSet inst }, calls,
      by simp [MultiLock.processRead, found, recorded, ran, next],
      inv.record processed stamp locks updated rfl rfl ?_⟩
    have hybrid := inv.hybrid_iff sync here processed found locks
    rw [hybrid, Bool.or_eq_true, updated.racy, marked]
    refine or_congr_right ?_
    rw [exists_comm]
    refine exists_congr fun t => ?_
    have conflicts := exists_conflict_iff .read (fun k => t ≠ curr ∧ ∃ elp ∈ m.els k t,
      currVc.getClock elp.1.tid < elp.1.clock ∧ ∀ a ∈ elp.2, a ∉ MultiLock.locksetOf b.own curr)
    simp only [reduceCtorEq, false_and, or_false] at conflicts
    rw [← conflicts]
    exact exists_congr fun k => and_left_comm

theorem MultiLockInv.write (inv : MultiLockInv unitSize tr epoch n x m)
    (sync : SyncInv forkJoinOrder tr (n + 1) b epoch)
    (here : tr[n]? = some (RaceEventType.write.hook curr inst addr size))
    (processed : Processed gateOpen unitSize tr .write x n curr inst)
    (found : b.currVcMap[curr]? = some currVc)
    (stamp : epoch n = some (curr, currVc.getClock curr)) (live : curr ∉ (progressAt tr (n + 1)).joined)
    (locks : ∀ a, a ∈ MultiLock.locksetOf b.own curr ↔ Held tr n curr a)
    (careful : m.Careful .write curr currVc (MultiLock.locksetOf b.own curr)) :
    ∃ next out, MultiLock.processWrite b curr x m inst = some (next, out) ∧
      MultiLockInv unitSize tr epoch (n + 1) x next := by
  cases looked : m.skips curr currVc (MultiLock.locksetOf b.own curr) .write with
  | true =>
    have test : (m.writerEls curr).any
        (MultiLock.skipsWrite currVc (MultiLock.locksetOf b.own curr)) = true := looked
    obtain ⟨elp, member, covering⟩ := List.any_eq_true.mp test
    have redundant : MultiLock.updateOnWrite curr m currVc (MultiLock.locksetOf b.own curr) inst =
        some (m, true) := updateOn_redundant looked
    refine ⟨m, [], by simp [MultiLock.processWrite, found, redundant], ?_⟩
    exact inv.redundant sync here processed found stamp live locks (Or.inl rfl) member covering
  | false =>
    let next := recordAs .write curr m currVc (MultiLock.locksetOf b.own curr) inst
    have recorded : MultiLock.updateOnWrite curr m currVc (MultiLock.locksetOf b.own curr) inst =
        some (next, false) := updateOn_recorded looked careful.spares
    have updated : Updated .write curr currVc (MultiLock.locksetOf b.own curr) inst m next := recordAs_spec
    obtain ⟨racedW, callsW, ranW, markedW⟩ := inv.check updated .write
      (fun thdId writerInst => ⟨x, thdId, writerInst, .write, curr, inst, .write⟩)
    obtain ⟨racedR, callsR, ranR, markedR⟩ := inv.check updated .read
      (fun thdId readerInst => ⟨x, thdId, readerInst, .read, curr, inst, .write⟩)
    simp only [MultiLockMeta.insts, MultiLockMeta.elsMap] at ranW ranR
    refine ⟨{ next with
        racy := next.racy || racedW || racedR
        raceInstSet := trackInst b.trackRacyInst next.raceInstSet inst }, callsW ++ callsR,
      by simp [MultiLock.processWrite, found, recorded, ranW, ranR, next],
      inv.record processed stamp locks updated rfl rfl ?_⟩
    have hybrid := inv.hybrid_iff sync here processed found locks
    rw [hybrid, Bool.or_eq_true, Bool.or_eq_true, updated.racy, markedW, markedR, or_assoc,
      ← exists_or]
    refine or_congr_right ?_
    rw [exists_comm]
    refine exists_congr fun t => ?_
    have conflicts := exists_conflict_iff .write (fun k => t ≠ curr ∧ ∃ elp ∈ m.els k t,
      currVc.getClock elp.1.tid < elp.1.clock ∧ ∀ a ∈ elp.2, a ∉ MultiLock.locksetOf b.own curr)
    simp only [true_and] at conflicts
    rw [← conflicts]
    exact exists_congr fun k => and_left_comm

end Process

section Run
variable {unitSize : Address} {tr : List Hook}

theorem multiLock_analyses : multiLock.Analyses forkJoinOrder gateOpen Holds unitSize tr
    (CarefulSteps unitSize) (MultiLockInv unitSize tr) (fun _ _ _ => True) (fun _ _ _ => False) where
  blank _ _ := MultiLockInv.blank
  restamp same inv := inv.restamp same
  skip none inv := inv.skip none
  process {n d epoch k curr inst addr size x} here member entered sync stamp runs holds cond inv := by
    rw [show multiLock.newMeta = {} from rfl] at inv ⊢
    have next : progressAt tr (n + 1) = progressAt tr n := by simp [progressAt_succ here]
    have live : curr ∉ (progressAt tr (n + 1)).joined := by rw [next]; exact runs.2
    obtain ⟨currVc, found⟩ := sync.present (t := curr) (by rw [next]; exact runs.1)
    rw [clockOf_of_vc found] at stamp
    have processed : Processed gateOpen unitSize tr k x n curr inst :=
      ⟨⟨addr, size, here, member⟩, entered⟩
    have opened : gate d.toDetectorBase = true := by
      rw [gate_of_counted sync.counted, next]
      exact entered
    have careful := Hook.ForUnits.unit cond member opened currVc found
    cases k with
    | read =>
      obtain ⟨m, out, ran, kept⟩ := inv.read sync here processed found stamp live (holds curr) careful
      exact ⟨m, out, ran, kept, by simp, by simp⟩
    | write =>
      obtain ⟨m, out, ran, kept⟩ := inv.write sync here processed found stamp live (holds curr) careful
      exact ⟨m, out, ran, kept, by simp, by simp⟩

/-- Accesses of a hybrid race pass the gate. -/
theorem hybrid_processed (tree : ThreadTree tr) {x : Address} {i j : ℕ}
    (hybrid : Hybrid (fun k => Accesses unitSize tr k x) tr i j) :
    Hybrid (fun k => Processed gateOpen unitSize tr k x) tr i j := by
  obtain ⟨k, l, t, u, inst, inst', first, second, other, conflict, ahead, behind, apart⟩ := hybrid
  have ⟨_, _, there, _⟩ := first
  have ⟨_, _, here, _⟩ := second
  have openFirst : gateOpen (progressAt tr i) = true := by
    by_contra closed
    rw [Bool.not_eq_true] at closed
    exact (tree.ordered_of_closed there closed here (thread_hook ..) other.symm).elim ahead behind
  have openSecond : gateOpen (progressAt tr j) = true := by
    by_contra closed
    rw [Bool.not_eq_true] at closed
    exact (tree.ordered_of_closed here closed there (thread_hook ..) other).elim behind ahead
  exact ⟨k, l, t, u, inst, inst', ⟨first, openFirst⟩, ⟨second, openSecond⟩, other, conflict, ahead, behind,
    apart⟩

/-- MultiLock marks exactly the units with a hybrid race, provided that it skips no
read without a record that covers it and never comes to eliminate a record. -/
theorem multiLock_marks_exactly {trackRacyInst : Bool} {filter : RegionFilter}
    (conforms : Conforms unitSize tr) (frees : UnlocksFree tr) (tree : ThreadTree tr)
    (monitored : Monitored filter tr) (careful : Runs.Along (Detector.step multiLock) (CarefulSteps unitSize)
      (start _ unitSize trackRacyInst filter ∅) tr) :
    ∃ last outs, Detector.run multiLock (start _ unitSize trackRacyInst filter ∅) tr = some (last, outs) ∧
      ∀ x, (metaAt last {} x).racy = true ↔
        ∃ i j, Hybrid (fun k => Accesses unitSize tr k x) tr i j := by
  have empty : Holds {} (∅ : OrdMap ThreadId Lockset) := by
    intro t a
    simp [MultiLock.locksetOf]
  obtain ⟨last, outs, ran, _, ⟨epoch, inv⟩, _⟩ :=
    multiLock_analyses.run (start _ unitSize trackRacyInst filter ∅) multiLock_tracks conforms frees monitored
      (start_fresh ..) empty careful
  refine ⟨last, outs, ran, fun x => (inv.units x).racy.trans ?_⟩
  constructor
  · rintro ⟨j, _, i, _, k, l, t, u, inst, inst', first, second, rest⟩
    exact ⟨i, j, k, l, t, u, inst, inst', first.1, second.1, rest⟩
  · rintro ⟨i, j, hybrid⟩
    have processed := hybrid_processed tree hybrid
    have bounds : i < tr.length ∧ j < tr.length ∧ i ≠ j := by
      obtain ⟨k, l, t, u, inst, inst', first, second, other, _⟩ := hybrid
      refine ⟨first.bound, second.bound, ?_⟩
      rintro rfl
      exact other (first.unique second).2.1
    rcases Nat.lt_or_gt_of_ne bounds.2.2 with before | after
    · exact ⟨j, bounds.2.1, i, before, processed⟩
    · exact ⟨i, bounds.1, j, after, processed.symm⟩

theorem multiLock_marks_exactly_fork : ∃ last outs,
    Detector.run multiLock (start _ 4 false (.addRegion {} 8 4) ∅) forkTrace = some (last, outs) ∧
      ∀ x, (metaAt last {} x).racy = true ↔
        ∃ i j, Hybrid (fun k => Accesses 4 forkTrace k x) forkTrace i j :=
  multiLock_marks_exactly (by decide) (by decide) (by decide) (by decide) (by decide)

/-- Thread 2 learns of the second read neither at its start nor by its lock. -/
theorem reread_unknown : ¬ forkJoinOrder.Known rereadTrace 7 (.thread 2) 5 := by
  have unreleased : ∀ n ≤ 6, ¬ forkJoinOrder.Known rereadTrace n (.thread 2) 5 := by
    rintro n bound ⟨j, below, e, here, released, rfl | ordered⟩
    · cases here
      exact nomatch (forkJoin_releases_iff _ _).mp released
    · exact absurd (Causality.hb_lt ordered) (by omega)
  intro known
  have lock : rereadTrace[6]? = some (.afterPthreadMutexLock 2 16) := rfl
  rcases (Causality.known_succ lock).mp known with before | ⟨_, same | ⟨d, acquired, before⟩⟩
  · exact unreleased 6 le_rfl before
  · exact nomatch same
  · rw [(forkJoin_mutexLock 2 16 d).1] at acquired
    exact unreleased 6 le_rfl (acquired ▸ before)

/-- The second read of `rereadTrace`, without mutex, is skipped beside the first
one, under mutex, and its race with the write of thread 2 is not marked. -/
theorem multiLock_misses_reread : Conforms 4 rereadTrace ∧ ThreadTree rereadTrace ∧
    Monitored (.addRegion {} 8 4) rereadTrace ∧
    (Detector.run multiLock (start _ 4 false (.addRegion {} 8 4) ∅) rereadTrace).map
      (fun result => (metaAt result.1 {} 8).racy) = some false ∧
    Hybrid (fun k => Accesses 4 rereadTrace k 8) rereadTrace 5 7 := by
  refine ⟨by decide, by decide, by decide, by decide, .read, .write, 1, 2, 8, 9, ⟨8, 4, rfl, by decide⟩,
    ⟨8, 4, rfl, by decide⟩, by decide, Or.inr rfl, ?_, ?_, ?_⟩
  · have write : rereadTrace[7]? = some (RaceEventType.write.hook 2 9 8 4) := rfl
    rw [forkJoinOrder_hooks.hb_access_iff write]
    exact reread_unknown
  · exact fun ordered => absurd (Causality.hb_lt ordered) (by omega)
  · intro a held
    have free : (progressAt rereadTrace 5).holder = (∅ : OrdMap Address ThreadId) := by decide
    simp [Held, free] at held

end Run
end Maple.Pintool
