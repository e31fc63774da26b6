import Maple.Lib.Runs
import Maple.Race.Detector

/-! Barrier rounds. A barrier alternates between two tables, and the turns are
inferred from the flags of the entries. The rounds below are counted by history
variables beside the detector state; other hooks may change everything but the
barrier's own tables between two calls. -/
namespace Maple.Race

theorem VectorClock.getClock_foldl_join_le (clocks : List VectorClock) (vc : VectorClock)
    (u : ThreadId) (c : ℕ) : (clocks.foldl .join vc).getClock u ≤ c ↔
      vc.getClock u ≤ c ∧ ∀ other ∈ clocks, other.getClock u ≤ c := by
  induction clocks generalizing vc with
  | nil => simp
  | cons other rest ih =>
    simp only [List.foldl_cons, ih, VectorClock.getClock_join, max_le_iff, List.forall_mem_cons, and_assoc]

namespace BarrierMeta

def tableAt (m : BarrierMeta) (first : Bool) : OrdMap ThreadId (VectorClock × Bool) :=
  if first then m.barrierWaitTable1 else m.barrierWaitTable2

theorem tableAt_setPreTable (m : BarrierMeta) (table : OrdMap ThreadId (VectorClock × Bool))
    (first : Bool) : (m.setPreTable table).tableAt first =
      if first = m.preUsingTable1 then table else m.tableAt first := by
  cases first <;> cases turn : m.preUsingTable1 <;> simp [setPreTable, tableAt, turn]

@[simp] theorem setPreTable_turns (m : BarrierMeta) (table : OrdMap ThreadId (VectorClock × Bool)) :
    (m.setPreTable table).preUsingTable1 = m.preUsingTable1 ∧
      (m.setPreTable table).postUsingTable1 = m.postUsingTable1 := by
  unfold setPreTable
  split <;> exact ⟨rfl, rfl⟩

@[simp] theorem setPostTable_turns (m : BarrierMeta) (table : OrdMap ThreadId (VectorClock × Bool)) :
    (m.setPostTable table).preUsingTable1 = m.preUsingTable1 ∧
      (m.setPostTable table).postUsingTable1 = m.postUsingTable1 := by
  unfold setPostTable
  split <;> exact ⟨rfl, rfl⟩

/-- The loop of `ProcessPostBarrier` over entries among which the current thread
is not flagged yet. -/
theorem scan_spec (curr : ThreadId) (entries : List (ThreadId × (VectorClock × Bool))) (scan : Scan)
    (waiting : ∀ e ∈ entries, e.1 = curr → e.2.2 = false) :
    ∃ last, entries.foldlM (scanEntry curr) scan = some last ∧
      (last.allFlagged = true ↔ scan.allFlagged = true ∧ ∀ e ∈ entries, e.1 ≠ curr → e.2.2 = true) ∧
      (last.allNotFlagged = true ↔
        scan.allNotFlagged = true ∧ ∀ e ∈ entries, e.1 ≠ curr → e.2.2 = false) ∧
      (∀ u c, last.currVc.getClock u ≤ c ↔
        scan.currVc.getClock u ≤ c ∧ ∀ e ∈ entries, e.2.1.getClock u ≤ c) ∧
      (∀ t ≠ curr, last.table[t]? = scan.table[t]?) ∧
      (∀ vc, (∀ e ∈ entries, e.1 = curr → e.2.1 = vc) →
        (scan.table[curr]? = some (vc, true) ∨ ∃ e ∈ entries, e.1 = curr) →
        last.table[curr]? = some (vc, true)) := by
  induction entries generalizing scan with
  | nil => simp
  | cons entry rest ih =>
    obtain ⟨t, vc, flagged⟩ := entry
    obtain ⟨clear, later⟩ := List.forall_mem_cons.mp waiting
    by_cases own : t = curr
    · subst own
      have clear := clear rfl
      simp only at clear
      subst clear
      obtain ⟨last, ran, all, none, clock, frame, mine⟩ := ih
        { scan with table := scan.table.insert t (vc, true), currVc := scan.currVc.join vc } later
      refine ⟨last, ?_, ?_, ?_, ?_, ?_, ?_⟩
      · simpa [List.foldlM_cons, scanEntry, debugAssert] using ran
      · simpa using all
      · simpa using none
      · simpa [and_assoc] using clock
      · intro u other
        rw [frame u other, Std.ExtTreeMap.getElem?_insert, if_neg (by simpa using other.symm)]
      · intro vc' same _
        obtain ⟨here, others⟩ := List.forall_mem_cons.mp same
        cases here rfl
        exact mine vc others (Or.inl (by simp))
    · obtain ⟨last, ran, all, none, clock, frame, mine⟩ := ih
        { scan with
          allFlagged := scan.allFlagged && flagged
          allNotFlagged := scan.allNotFlagged && !flagged
          currVc := scan.currVc.join vc } later
      refine ⟨last, ?_, ?_, ?_, ?_, frame, ?_⟩
      · simpa [List.foldlM_cons, scanEntry, own] using ran
      · simpa [own, and_assoc] using all
      · simpa [own, and_assoc] using none
      · simpa [and_assoc] using clock
      · intro vc' same found
        refine mine vc' (fun e member => same e (List.mem_cons_of_mem _ member)) ?_
        rcases found with found | ⟨e, member, mineToo⟩
        · exact Or.inl found
        · rcases List.mem_cons.mp member with rfl | member
          · exact absurd mineToo own
          · exact Or.inr ⟨e, member, mineToo⟩

theorem mem_toList {table : OrdMap ThreadId (VectorClock × Bool)} {e : ThreadId × (VectorClock × Bool)} :
    e ∈ table.toList ↔ table[e.1]? = some e.2 :=
  Std.ExtTreeMap.mem_toList_iff_getElem?_eq_some

theorem settle_turns (m : BarrierMeta) (scan : Scan) :
    (m.settle scan).preUsingTable1 = (m.preUsingTable1 ^^ scan.allNotFlagged) ∧
      (m.settle scan).postUsingTable1 = (m.postUsingTable1 ^^ scan.allFlagged) := by
  cases none : scan.allNotFlagged <;> cases all : scan.allFlagged <;> simp [settle, none, all]

theorem tableAt_settle (m : BarrierMeta) (scan : Scan) (first : Bool) :
    (m.settle scan).tableAt first = if first = m.postUsingTable1 then
      if scan.allFlagged then ∅ else scan.table else m.tableAt first := by
  cases first <;> cases turn : m.postUsingTable1 <;> cases none : scan.allNotFlagged <;>
    cases all : scan.allFlagged <;> simp [settle, setPostTable, tableAt, turn, none, all]

/-- `ProcessPostBarrier` of a thread whose entry in the table is not flagged yet. -/
theorem processPost_spec (m : BarrierMeta) (curr : ThreadId) (currVc vc : VectorClock)
    (waiting : m.postTable[curr]? = some (vc, false)) :
    ∃ scan : Scan, m.processPost curr currVc = some (m.settle scan, scan.currVc.increment curr) ∧
      (scan.allFlagged = true ↔
        ∀ (t : ThreadId) (v : VectorClock) (f : Bool), m.postTable[t]? = some (v, f) → t ≠ curr → f = true) ∧
      (scan.allNotFlagged = true ↔
        ∀ (t : ThreadId) (v : VectorClock) (f : Bool), m.postTable[t]? = some (v, f) → t ≠ curr → f = false) ∧
      (∀ u c, scan.currVc.getClock u ≤ c ↔ currVc.getClock u ≤ c ∧
        ∀ (t : ThreadId) (v : VectorClock) (f : Bool), m.postTable[t]? = some (v, f) → v.getClock u ≤ c) ∧
      ∀ t, scan.table[t]? = if t = curr then some (vc, true) else m.postTable[t]? := by
  have entries : ∀ {P : ThreadId × (VectorClock × Bool) → Prop}, (∀ e ∈ m.postTable.toList, P e) ↔
      ∀ (t : ThreadId) (v : VectorClock) (f : Bool), m.postTable[t]? = some (v, f) → P (t, v, f) := by
    intro P
    constructor
    · exact fun all t v f found => all (t, v, f) (mem_toList.mpr found)
    · exact fun all e member => all e.1 e.2.1 e.2.2 (mem_toList.mp member)
  have mine : ∀ e ∈ m.postTable.toList, e.1 = curr → e.2 = (vc, false) := by
    intro e member same
    have found := mem_toList.mp member
    rw [same, waiting] at found
    exact (Option.some.inj found).symm
  obtain ⟨last, ran, all, none, clock, frame, own⟩ := scan_spec curr m.postTable.toList
    { table := m.postTable, currVc := currVc } (fun e member same => by rw [mine e member same])
  simp only [entries, true_and] at all none clock
  refine ⟨last, by simp [processPost, ran], all, none, clock, fun t => ?_⟩
  split
  · next same =>
      subst same
      refine own vc (fun e member same => by rw [mine e member same]) (Or.inr ?_)
      exact ⟨(t, vc, false), mem_toList.mpr waiting, rfl⟩
  · next other => exact frame t other

end BarrierMeta

section Rounds
variable {G : Type}

/-- A detector state with history: how often each thread has entered and left the
barrier, and the clock it stored when entering each round. -/
structure BarrierRun (G : Type) where
  base : DetectorBase G
  pres : ThreadId → ℕ := fun _ => 0
  posts : ThreadId → ℕ := fun _ => 0
  stored : ℕ → ThreadId → VectorClock := fun _ _ => {}

/-- Calls on one barrier; `other` stands for any other hooks in between. -/
inductive BarrierCall (G : Type) where
  | pre (thdId : ThreadId)
  | post (thdId : ThreadId)
  | other (base : DetectorBase G)

namespace BarrierRun

def barrierMeta (r : BarrierRun G) (addr : Address) : BarrierMeta := r.base.barrierMetaTable[addr]?.getD {}

/-- Barrier semantics for a fixed set of participants. Other hooks do not touch
this barrier and keep the participants' clocks in place, with any value. -/
def Allows (addr : Address) (participants : List ThreadId) (r : BarrierRun G) : BarrierCall G → Prop
  | .pre t => t ∈ participants ∧ r.pres t = r.posts t
  | .post t => t ∈ participants ∧ r.pres t = r.posts t + 1 ∧ ∀ u ∈ participants, r.posts t < r.pres u
  | .other b => b.barrierMetaTable[addr]? = r.base.barrierMetaTable[addr]? ∧
      ∀ p ∈ participants, ∃ vc, b.currVcMap[p]? = some vc

def step (addr : Address) (r : BarrierRun G) : BarrierCall G → Option (BarrierRun G)
  | .pre t => do
    let vc ← r.base.currVcMap[t]?
    let base ← r.base.processPreBarrier t addr
    return { r with
      base := base
      pres := Function.update r.pres t (r.pres t + 1)
      stored := Function.update r.stored (r.pres t) (Function.update (r.stored (r.pres t)) t vc) }
  | .post t => do
    let base ← r.base.processPostBarrier t addr
    return { r with base := base, posts := Function.update r.posts t (r.posts t + 1) }
  | .other b => some { r with base := b }

/-- A barrier that nobody has used yet. -/
def Initial (addr : Address) (participants : List ThreadId) (r : BarrierRun G) : Prop :=
  ∃ base : DetectorBase G, r = { base := base } ∧ base.barrierMetaTable[addr]? = none ∧
    ∀ p ∈ participants, ∃ vc, base.currVcMap[p]? = some vc

def Reachable (addr : Address) (participants : List ThreadId) : BarrierRun G → Prop :=
  Runs.Reach (Initial addr participants) (Allows addr participants) (step addr)

/-- The table that round `k` uses. -/
def roundTable (r : BarrierRun G) (addr : Address) (k : ℕ) : OrdMap ThreadId (VectorClock × Bool) :=
  (r.barrierMeta addr).tableAt (k % 2 == 0)

/-- Some thread is still in round `k`, none is beyond the following one, and the
turns and tables are those of these two rounds. -/
structure Inv (addr : Address) (participants : List ThreadId) (r : BarrierRun G) (k : ℕ) : Prop where
  present : ∀ p ∈ participants, ∃ vc, r.base.currVcMap[p]? = some vc
  low : ∀ p ∈ participants, k ≤ r.posts p
  high : ∀ p ∈ participants, r.posts p ≤ k + 1
  behind : ∃ p ∈ participants, r.posts p = k
  inside : ∀ p ∈ participants, r.posts p ≤ r.pres p ∧ r.pres p ≤ r.posts p + 1
  full : ∀ p ∈ participants, r.posts p = k + 1 → ∀ q ∈ participants, k < r.pres q
  postTurn : (r.barrierMeta addr).postUsingTable1 = (k % 2 == 0)
  preTurn : (r.barrierMeta addr).preUsingTable1 =
    if ∃ p ∈ participants, r.posts p = k + 1 then ((k + 1) % 2 == 0) else (k % 2 == 0)
  current : ∀ t, (r.roundTable addr k)[t]? =
    if t ∈ participants ∧ k < r.pres t then some (r.stored k t, decide (r.posts t = k + 1)) else none
  following : ∀ t, (r.roundTable addr (k + 1))[t]? =
    if t ∈ participants ∧ r.pres t = k + 2 then some (r.stored (k + 1) t, false) else none

variable {addr : Address} {participants : List ThreadId} {r r' : BarrierRun G} {k : ℕ}

theorem side_succ (k : ℕ) : ((k + 1) % 2 == 0) = !(k % 2 == 0) := by
  rcases Nat.mod_two_eq_zero_or_one k with even | odd
  · simp [Nat.add_mod, even]
  · simp [Nat.add_mod, odd]

theorem side_succ_succ (k : ℕ) : ((k + 1 + 1) % 2 == 0) = (k % 2 == 0) := by
  rw [side_succ, side_succ, Bool.not_not]

theorem inv_initial (nonempty : participants ≠ []) (base : DetectorBase G)
    (unused : base.barrierMetaTable[addr]? = none)
    (present : ∀ p ∈ participants, ∃ vc, base.currVcMap[p]? = some vc) :
    Inv addr participants { base := base } 0 := by
  have blank : ({ base := base } : BarrierRun G).barrierMeta addr = {} := by
    simp [barrierMeta, unused]
  obtain ⟨p, member⟩ := List.exists_mem_of_ne_nil _ nonempty
  refine ⟨present, by simp, by simp, ⟨p, member, rfl⟩, by simp, by simp, by simp [blank],
    by simp [blank], ?_, ?_⟩
  · intro t
    simp [roundTable, blank, BarrierMeta.tableAt]
  · intro t
    simp [roundTable, blank, BarrierMeta.tableAt]

theorem Inv.other (inv : Inv addr participants r k) {b : DetectorBase G}
    (same : b.barrierMetaTable[addr]? = r.base.barrierMetaTable[addr]?)
    (present : ∀ p ∈ participants, ∃ vc, b.currVcMap[p]? = some vc) :
    Inv addr participants { r with base := b } k := by
  have metas : ({ r with base := b } : BarrierRun G).barrierMeta addr = r.barrierMeta addr := by
    simp [barrierMeta, same]
  refine ⟨present, inv.low, inv.high, inv.behind, inv.inside, inv.full, ?_, ?_, ?_, ?_⟩
  · rw [metas]; exact inv.postTurn
  · rw [metas]; exact inv.preTurn
  · intro t
    rw [roundTable, metas]
    exact inv.current t
  · intro t
    rw [roundTable, metas]
    exact inv.following t

/-- The arrivals' table is that of the round the thread is about to enter. -/
theorem Inv.preTurn_of_outside (inv : Inv addr participants r k) {t : ThreadId}
    (member : t ∈ participants) (outside : r.pres t = r.posts t) :
    (r.barrierMeta addr).preUsingTable1 = (r.posts t % 2 == 0) := by
  have low := inv.low t member
  have high := inv.high t member
  rw [inv.preTurn]
  split
  · next fast =>
      obtain ⟨p, memberP, ahead⟩ := fast
      have inside := inv.full p memberP ahead t member
      have round : r.posts t = k + 1 := by omega
      rw [round]
  · next slow =>
      have other : r.posts t ≠ k + 1 := fun same => slow ⟨t, member, same⟩
      have round : r.posts t = k := by omega
      rw [round]

theorem roundTable_pre {t : ThreadId} {vc : VectorClock}
    (turn : (r.barrierMeta addr).preUsingTable1 = (r.posts t % 2 == 0))
    (metas : r'.barrierMeta addr = (r.barrierMeta addr).processPre t vc) (i : ℕ) :
    r'.roundTable addr i = if (i % 2 == 0) = (r.posts t % 2 == 0)
      then (r.roundTable addr (r.posts t)).insert t (vc, false) else r.roundTable addr i := by
  rw [roundTable, metas, BarrierMeta.processPre, BarrierMeta.tableAt_setPreTable, turn]
  split
  · rw [roundTable, ← turn]
    rfl
  · rfl

/-- A thread enters the round `posts t`, which is `k` or, for a fast one, `k + 1`. -/
theorem Inv.pre (inv : Inv addr participants r k) {t : ThreadId} (member : t ∈ participants)
    (outside : r.pres t = r.posts t) :
    ∃ r', r.step addr (.pre t) = some r' ∧ Inv addr participants r' k := by
  obtain ⟨vc, found⟩ := inv.present t member
  have turn := inv.preTurn_of_outside member outside
  let base : DetectorBase G := { r.base with
    barrierMetaTable := r.base.barrierMetaTable.insert addr ((r.barrierMeta addr).processPre t vc) }
  let next : BarrierRun G := { r with
    base := base
    pres := Function.update r.pres t (r.pres t + 1)
    stored := Function.update r.stored (r.pres t) (Function.update (r.stored (r.pres t)) t vc) }
  have processed : r.base.processPreBarrier t addr = some base := by
    simp [DetectorBase.processPreBarrier, found, base, barrierMeta]
  have metas : next.barrierMeta addr = (r.barrierMeta addr).processPre t vc := by
    simp [barrierMeta, next, base]
  have tables := roundTable_pre turn metas
  have pres : ∀ u, next.pres u = if u = t then r.posts t + 1 else r.pres u := by
    intro u
    simp only [next, Function.update_apply, outside]
  have stored : ∀ i u, next.stored i u = if i = r.posts t ∧ u = t then vc else r.stored i u := by
    intro i u
    simp only [next, Function.update_apply, outside]
    split <;> rename_i same <;> simp [same, Function.update_apply]
  refine ⟨next, by simp [step, found, processed, next], ?_⟩
  have low := inv.low t member
  have high := inv.high t member
  refine ⟨inv.present, inv.low, inv.high, inv.behind, ?_, ?_, ?_, ?_, ?_, ?_⟩
  · intro p memberP
    have inside := inv.inside p memberP
    rw [pres]
    split <;> simp_all [next]
  · intro p memberP ahead q memberQ
    have inside := inv.full p memberP ahead q memberQ
    rw [pres]
    split <;> omega
  · rw [metas, BarrierMeta.processPre, (BarrierMeta.setPreTable_turns _ _).2]
    exact inv.postTurn
  · rw [metas, BarrierMeta.processPre, (BarrierMeta.setPreTable_turns _ _).1]
    exact inv.preTurn
  · intro u
    have old := inv.current u
    rw [tables, pres, stored]
    by_cases round : r.posts t = k
    · rw [round, if_pos rfl, getElem?_insert_thread, old]
      by_cases same : u = t
      · subst same
        simp [member, round, next]
      · simp [same, Ne.symm same, next]
    · have fast : r.posts t = k + 1 := by omega
      have apart : ¬ (k % 2 == 0) = (r.posts t % 2 == 0) := by
        rw [fast, side_succ]
        cases (k % 2 == 0) <;> simp
      rw [if_neg apart, old]
      by_cases same : u = t
      · subst same
        have before : k < r.pres u := by omega
        have after : k < k + 1 + 1 := by omega
        simp [member, before, after, fast, next]
      · simp [same, next]
  · intro u
    have old := inv.following u
    rw [tables, pres, stored]
    by_cases round : r.posts t = k
    · have apart : ¬ ((k + 1) % 2 == 0) = (r.posts t % 2 == 0) := by
        rw [round, side_succ]
        cases (k % 2 == 0) <;> simp
      rw [if_neg apart, old]
      by_cases same : u = t
      · subst same
        have before : r.pres u ≠ k + 2 := by omega
        simp [before, round]
      · simp [same]
    · have fast : r.posts t = k + 1 := by omega
      rw [fast, if_pos rfl, getElem?_insert_thread, old]
      by_cases same : u = t
      · subst same
        simp [member]
      · simp [same, Ne.symm same]

/-- Everybody has entered the round of a thread that leaves, so it is the oldest one. -/
theorem Inv.round_of_post (inv : Inv addr participants r k) {t : ThreadId} (member : t ∈ participants)
    (entered : ∀ u ∈ participants, r.posts t < r.pres u) : r.posts t = k := by
  obtain ⟨p, memberP, slow⟩ := inv.behind
  have bound := entered p memberP
  have inside := inv.inside p memberP
  have low := inv.low t member
  omega

/-- The entries of the oldest round once everybody has entered it. -/
theorem Inv.entries (inv : Inv addr participants r k) (entered : ∀ u ∈ participants, k < r.pres u)
    {t : ThreadId} {v : VectorClock} {f : Bool} :
    (r.barrierMeta addr).postTable[t]? = some (v, f) ↔
      t ∈ participants ∧ r.stored k t = v ∧ decide (r.posts t = k + 1) = f := by
  have table : (r.barrierMeta addr).postTable = r.roundTable addr k := by
    rw [roundTable, ← inv.postTurn]
    rfl
  rw [table, inv.current]
  constructor
  · intro found
    split at found
    · next inside =>
        cases found
        exact ⟨inside.1, rfl, rfl⟩
    · exact nomatch found
  · rintro ⟨member, rfl, rfl⟩
    rw [if_pos ⟨member, entered t member⟩]

/-- What `ProcessPostBarrier` of `t` makes of the oldest round, where `scan` is the result of its loop. -/
structure Leaves (addr : Address) (participants : List ThreadId) (r next : BarrierRun G) (t : ThreadId) (k : ℕ)
    (scan : BarrierMeta.Scan) : Prop where
  pres : next.pres = r.pres
  stored : next.stored = r.stored
  posts : ∀ p, next.posts p = if p = t then k + 1 else r.posts p
  metas : next.barrierMeta addr = (r.barrierMeta addr).settle scan
  present : ∀ p ∈ participants, ∃ vc, next.base.currVcMap[p]? = some vc
  table : ∀ u, scan.table[u]? = if u = t then some (r.stored k t, true) else (r.barrierMeta addr).postTable[u]?
  last : scan.allFlagged = true ↔ ∀ p ∈ participants, k < next.posts p
  first : scan.allNotFlagged = true ↔ ∀ p ∈ participants, p ≠ t → r.posts p ≠ k + 1

theorem Inv.leaves (inv : Inv addr participants r k) {t : ThreadId} (member : t ∈ participants)
    (round : r.posts t = k) (entered : ∀ u ∈ participants, k < r.pres u) :
    ∃ (next : BarrierRun G) (own : VectorClock) (scan : BarrierMeta.Scan), r.step addr (.post t) = some next ∧
      r.base.currVcMap[t]? = some own ∧ next.base.currVcMap[t]? = some (scan.currVc.increment t) ∧
      (∀ u, scan.currVc.getClock u = ((participants.map (r.stored k)).foldl .join own).getClock u) ∧
      Leaves addr participants r next t k scan := by
  obtain ⟨own, found⟩ := inv.present t member
  have entries := @inv.entries _ _ _ _ _ entered
  obtain ⟨scan, ran, all, none, clock, table⟩ := BarrierMeta.processPost_spec (r.barrierMeta addr) t own
    (r.stored k t) (entries.mpr ⟨member, rfl, by simp [round]⟩)
  let base : DetectorBase G := { r.base.setVc t (scan.currVc.increment t) with
    barrierMetaTable := r.base.barrierMetaTable.insert addr ((r.barrierMeta addr).settle scan) }
  let next : BarrierRun G := { r with
    base := base
    posts := Function.update r.posts t (k + 1) }
  have processed : r.base.processPostBarrier t addr = some base := by
    simp only [barrierMeta] at ran
    simp [DetectorBase.processPostBarrier, found, ran, base, barrierMeta]
  have posts : ∀ p, next.posts p = if p = t then k + 1 else r.posts p := by
    intro p
    simp only [next, Function.update_apply]
  refine ⟨next, own, scan, by simp [step, processed, next, round], found, by simp [next, base, DetectorBase.setVc],
    fun u => ?_, rfl, rfl, posts, by simp [barrierMeta, next, base], fun p memberP => ?_, table, ?_, ?_⟩
  · refine eq_of_forall_ge_iff fun c => ?_
    rw [clock, VectorClock.getClock_foldl_join_le]
    simp only [entries, List.forall_mem_map]
    refine and_congr_right fun _ => ?_
    constructor
    · exact fun bound p memberP => bound p _ _ ⟨memberP, rfl, rfl⟩
    · rintro bound p _ _ ⟨memberP, rfl, rfl⟩
      exact bound p memberP
  · simp only [next, base, DetectorBase.setVc, getElem?_insert_thread]
    split
    · exact ⟨_, rfl⟩
    · exact inv.present p memberP
  · simp only [all, entries, posts]
    constructor
    · intro flagged p memberP
      split
      · omega
      · next other =>
          have ahead := flagged p _ _ ⟨memberP, rfl, rfl⟩ other
          simp only [decide_eq_true_eq] at ahead
          omega
    · rintro ahead p _ _ ⟨memberP, rfl, rfl⟩ other
      have bound := ahead p memberP
      have high := inv.high p memberP
      rw [if_neg other] at bound
      simp only [decide_eq_true_eq]
      omega
  · simp only [none, entries]
    constructor
    · intro clear p memberP other
      simpa using clear p _ _ ⟨memberP, rfl, rfl⟩ other
    · rintro clear p _ _ ⟨memberP, rfl, rfl⟩ other
      simpa using clear p memberP other

namespace Leaves
variable {next : BarrierRun G} {t : ThreadId} {scan : BarrierMeta.Scan}

theorem tables (leaves : Leaves addr participants r next t k scan) (inv : Inv addr participants r k) (i : ℕ) :
    next.roundTable addr i = if (i % 2 == 0) = (k % 2 == 0)
      then if scan.allFlagged then ∅ else scan.table else r.roundTable addr i := by
  rw [roundTable, leaves.metas, BarrierMeta.tableAt_settle, inv.postTurn]
  rfl

theorem following (leaves : Leaves addr participants r next t k scan) (inv : Inv addr participants r k) :
    next.roundTable addr (k + 1) = r.roundTable addr (k + 1) := by
  have apart : ¬ ((k + 1) % 2 == 0) = (k % 2 == 0) := by
    rw [side_succ]
    cases (k % 2 == 0) <;> simp
  rw [leaves.tables inv, if_neg apart]

/-- The first thread that leaves turns the arrivals to the next round. -/
theorem preTurn (leaves : Leaves addr participants r next t k scan) (inv : Inv addr participants r k)
    (round : r.posts t = k) : (next.barrierMeta addr).preUsingTable1 = ((k + 1) % 2 == 0) := by
  rw [leaves.metas, (BarrierMeta.settle_turns _ _).1, inv.preTurn, side_succ]
  by_cases lone : ∀ p ∈ participants, p ≠ t → r.posts p ≠ k + 1
  · have slow : ¬ ∃ p ∈ participants, r.posts p = k + 1 := by
      rintro ⟨p, memberP, ahead⟩
      by_cases same : p = t
      · subst same; omega
      · exact lone p memberP same ahead
    rw [if_neg slow, leaves.first.mpr lone, Bool.xor_true]
  · have fast : ∃ p ∈ participants, r.posts p = k + 1 := by
      simp only [not_forall, not_not] at lone
      obtain ⟨p, memberP, _, ahead⟩ := lone
      exact ⟨p, memberP, ahead⟩
    have flagged : scan.allNotFlagged = false := by simpa using fun holds => lone (leaves.first.mp holds)
    rw [if_pos fast, flagged, Bool.xor_false]

theorem inside (leaves : Leaves addr participants r next t k scan) (inv : Inv addr participants r k)
    (inside : r.pres t = k + 1) :
    ∀ p ∈ participants, next.posts p ≤ next.pres p ∧ next.pres p ≤ next.posts p + 1 := by
  intro p memberP
  have bounds := inv.inside p memberP
  rw [leaves.posts, leaves.pres]
  split
  · next same => subst same; omega
  · exact bounds

theorem high (leaves : Leaves addr participants r next t k scan) (inv : Inv addr participants r k) :
    ∀ p ∈ participants, next.posts p ≤ k + 1 := by
  intro p memberP
  rw [leaves.posts]
  split
  · exact le_rfl
  · exact inv.high p memberP

/-- The last thread that leaves empties the table of its round, and the next round is the oldest. -/
theorem advance (leaves : Leaves addr participants r next t k scan) (inv : Inv addr participants r k)
    (member : t ∈ participants) (round : r.posts t = k) (entered : r.pres t = k + 1)
    (ahead : ∀ p ∈ participants, k < next.posts p) :
    next.roundTable addr k = ∅ ∧ Inv addr participants next (k + 1) := by
  have cleared : scan.allFlagged = true := leaves.last.mpr ahead
  have high := leaves.high inv
  refine ⟨by simp [leaves.tables inv, cleared], leaves.present, ahead,
    fun p memberP => (high p memberP).trans (Nat.le_succ _), ⟨t, member, by simp [leaves.posts]⟩,
    leaves.inside inv entered, ?_, ?_, ?_, ?_, ?_⟩
  · intro p memberP beyond
    have bound := high p memberP
    omega
  · rw [leaves.metas, (BarrierMeta.settle_turns _ _).2, inv.postTurn, cleared, side_succ, Bool.xor_true]
  · have none : ¬ ∃ p ∈ participants, next.posts p = k + 1 + 1 := by
      rintro ⟨p, memberP, beyond⟩
      have bound := high p memberP
      omega
    rw [leaves.preTurn inv round, if_neg none]
  · intro u
    rw [leaves.following inv, inv.following, leaves.pres, leaves.stored]
    by_cases memberU : u ∈ participants
    · have bound := high u memberU
      have bounds := inv.inside u memberU
      have top := inv.high u memberU
      have same : r.pres u = k + 2 ↔ k + 1 < r.pres u := by omega
      have slow : next.posts u ≠ k + 1 + 1 := by omega
      simp [memberU, same, slow]
    · simp [memberU]
  · intro u
    rw [leaves.tables inv, side_succ_succ, if_pos rfl, cleared, leaves.pres]
    by_cases memberU : u ∈ participants
    · have bounds := inv.inside u memberU
      have top := inv.high u memberU
      have none : r.pres u ≠ k + 1 + 2 := by omega
      simp [none]
    · simp [memberU]

/-- Until then the round stays the oldest one. -/
theorem stay (leaves : Leaves addr participants r next t k scan) (inv : Inv addr participants r k)
    (member : t ∈ participants) (round : r.posts t = k) (inside : r.pres t = k + 1)
    (entered : ∀ u ∈ participants, k < r.pres u) (behind : ¬ ∀ p ∈ participants, k < next.posts p) :
    Inv addr participants next k := by
  have kept : scan.allFlagged = false := by simpa using fun holds => behind (leaves.last.mp holds)
  refine ⟨leaves.present, ?_, leaves.high inv, ?_, leaves.inside inv inside, ?_, ?_, ?_, ?_, ?_⟩
  · intro p memberP
    have low := inv.low p memberP
    rw [leaves.posts]
    split <;> omega
  · simp only [not_forall] at behind
    obtain ⟨p, memberP, slow⟩ := behind
    refine ⟨p, memberP, ?_⟩
    have low := inv.low p memberP
    rw [leaves.posts] at slow ⊢
    split at slow
    · omega
    · next other =>
        rw [if_neg other]
        omega
  · rw [leaves.pres]
    exact fun _ _ _ => entered
  · rw [leaves.metas, (BarrierMeta.settle_turns _ _).2, inv.postTurn, kept, Bool.xor_false]
  · rw [leaves.preTurn inv round, if_pos ⟨t, member, by simp [leaves.posts]⟩]
  · intro u
    have old := inv.current u
    rw [leaves.tables inv, if_pos rfl, kept, if_neg (by simp), leaves.table, leaves.posts, leaves.pres, leaves.stored]
    split
    · next same =>
        subst same
        simp [member, entered u member]
    · rw [← old, roundTable, ← inv.postTurn]
      rfl
  · intro u
    rw [leaves.following inv, leaves.pres, leaves.stored]
    exact inv.following u

end Leaves

/-- A thread leaves the oldest round with the join of the round's clocks; when it
is the last one, the next round becomes the oldest. -/
theorem Inv.post (inv : Inv addr participants r k) {t : ThreadId} (member : t ∈ participants)
    (inside : r.pres t = r.posts t + 1) (entered : ∀ u ∈ participants, r.posts t < r.pres u) :
    ∃ (r' : BarrierRun G) (own joined : VectorClock), r.step addr (.post t) = some r' ∧
      r.base.currVcMap[t]? = some own ∧ r'.base.currVcMap[t]? = some (joined.increment t) ∧
      (∀ u, joined.getClock u = ((participants.map (r.stored (r.posts t))).foldl .join own).getClock u) ∧
      ((∀ p ∈ participants, k < r'.posts p) →
        r'.roundTable addr k = ∅ ∧ Inv addr participants r' (k + 1)) ∧
      (¬ (∀ p ∈ participants, k < r'.posts p) → Inv addr participants r' k) := by
  have round := inv.round_of_post member entered
  rw [round] at inside entered ⊢
  obtain ⟨next, own, scan, stepped, found, clock, joined, leaves⟩ := inv.leaves member round entered
  exact ⟨next, own, scan.currVc, stepped, found, clock, joined, leaves.advance inv member round inside,
    leaves.stay inv member round inside entered⟩

theorem inv_of_reachable (nonempty : participants ≠ []) (reached : Reachable addr participants r) :
    ∃ k, Inv addr participants r k := by
  refine Runs.Reach.invariant (fun r => ∃ k, Inv addr participants r k) ?_ ?_ reached
  · rintro _ ⟨base, rfl, unused, present⟩
    exact ⟨0, inv_initial nonempty base unused present⟩
  · rintro r call r' ⟨k, inv⟩ allowed stepped
    cases call with
    | pre t =>
      obtain ⟨next, result, kept⟩ := inv.pre allowed.1 allowed.2
      cases stepped.symm.trans result
      exact ⟨k, kept⟩
    | post t =>
      obtain ⟨next, own, joined, result, _, _, _, done, waiting⟩ :=
        inv.post allowed.1 allowed.2.1 allowed.2.2
      cases stepped.symm.trans result
      by_cases ahead : ∀ p ∈ participants, k < r'.posts p
      · exact ⟨k + 1, (done ahead).2⟩
      · exact ⟨k, waiting ahead⟩
    | other b =>
      cases stepped
      exact ⟨k, inv.other allowed.1 allowed.2⟩

/-- In every run that obeys barrier semantics no call fails; leaving round `k`
gives the join of the thread's clock with exactly the clocks stored on entering
round `k`, ticked once; and behind the last thread the round's table is empty. -/
theorem barrier_rounds (nonempty : participants ≠ []) (reached : Reachable addr participants r)
    (call : BarrierCall G) (allowed : r.Allows addr participants call) :
    ∃ r', r.step addr call = some r' ∧ ∀ t, call = .post t →
      (∃ own vc : VectorClock, r.base.currVcMap[t]? = some own ∧ r'.base.currVcMap[t]? = some vc ∧
        ∀ u, vc.getClock u =
          (((participants.map (r.stored (r.posts t))).foldl .join own).increment t).getClock u) ∧
      ((∀ p ∈ participants, r.posts t < r'.posts p) → r'.roundTable addr (r.posts t) = ∅) := by
  obtain ⟨k, inv⟩ := inv_of_reachable nonempty reached
  cases call with
  | pre t =>
    obtain ⟨next, result, _⟩ := inv.pre allowed.1 allowed.2
    exact ⟨next, result, fun _ same => nomatch same⟩
  | post t =>
    obtain ⟨next, own, joined, result, found, left, clock, done, _⟩ :=
      inv.post allowed.1 allowed.2.1 allowed.2.2
    refine ⟨next, result, fun u same => ?_⟩
    cases same
    refine ⟨⟨own, _, found, left, fun u => ?_⟩, ?_⟩
    · simp only [VectorClock.getClock_increment, clock]
    · rw [inv.round_of_post allowed.1 allowed.2.2]
      exact fun ahead => (done ahead).1
  | other b => exact ⟨_, rfl, fun _ same => nomatch same⟩

/-- Two threads that have both arrived. -/
def arrivedRun : BarrierRun Unit :=
  let clocks : OrdMap ThreadId VectorClock := (Std.ExtTreeMap.empty.insert 1 {}).insert 2 {}
  let start : BarrierRun Unit := { base := { currVcMap := clocks, own := () } }
  ((start.step 8 (.pre 1)).bind fun r => r.step 8 (.pre 2)).getD start

theorem arrivedRun_reachable : Reachable 8 [1, 2] arrivedRun := by
  refine .next (.pre 2) (.next (.pre 1) (.start ⟨
    { currVcMap := (Std.ExtTreeMap.empty.insert 1 {}).insert 2 {}, own := () }, rfl, rfl, ?_⟩)
    ⟨by decide, rfl⟩ rfl) ⟨by decide, rfl⟩ rfl
  simp

theorem barrier_rounds_first : ∃ r', arrivedRun.step 8 (.post 1) = some r' ∧
    ∀ t, BarrierCall.post (G := Unit) 1 = .post t →
      (∃ own vc : VectorClock, arrivedRun.base.currVcMap[t]? = some own ∧
        r'.base.currVcMap[t]? = some vc ∧ ∀ u, vc.getClock u =
          ((([1, 2].map (arrivedRun.stored (arrivedRun.posts t))).foldl .join own).increment t).getClock u) ∧
      ((∀ p ∈ [1, 2], arrivedRun.posts t < r'.posts p) →
        r'.roundTable 8 (arrivedRun.posts t) = ∅) :=
  barrier_rounds (by decide) arrivedRun_reachable (.post 1) ⟨by decide, rfl, by decide⟩

end BarrierRun
end Rounds
end Maple.Race
