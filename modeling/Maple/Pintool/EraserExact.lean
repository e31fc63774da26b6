import Maple.Pintool.LocksetHooks

/-! Which violations of the lockset discipline Eraser marks. The record of a unit's last
write replaces that of any earlier one, and the record of a thread's last read that of
its earlier reads, so that the two accesses are compared exactly if the first of them is
still the last one of its kind. -/
namespace Maple.Pintool
open Race

/-- Thread `t` has taken the mutex and not given it back since. -/
def Holding (tr : List Hook) (n : ℕ) (t : ThreadId) (a : Address) : Prop :=
  ∃ i < n, (∃ e, tr[i]? = some e ∧ e.lockOp = some (.take t a)) ∧
    ∀ j e, i < j → j < n → tr[j]? = some e → e.lockOp ≠ some (.drop t a)

/-- An access that the hooks do not leave out. -/
def Looked (filter : RegionFilter) (unitSize : Address) (tr : List Hook) (k : RaceEventType) (x : Address) (i : ℕ)
    (t : ThreadId) (inst : InstId) : Prop :=
  ∃ addr size, tr[i]? = some (k.hook t inst addr size) ∧ x ∈ unitsOf unitSize addr size ∧
    filter.filter addr = false ∧ gateOpen (progressAt tr i) = true

/-- Position `i` is the last before `n` with the property. -/
def LastBefore (P : ℕ → Prop) (n i : ℕ) : Prop := i < n ∧ P i ∧ ∀ p, i < p → p < n → ¬ P p

/-- No later write has replaced the write at position `i`, resp. no later read of the
thread its read. -/
def Survives (acc : RaceEventType → ℕ → ThreadId → InstId → Prop) : RaceEventType → ThreadId → ℕ → ℕ → Prop
  | .write, _ => LastBefore fun p => ∃ u inst, acc .write p u inst
  | .read, t => LastBefore fun p => ∃ inst, acc .read p t inst

/-- Two accesses by different threads, one a write, under disjoint locksets. -/
def Violation (acc : RaceEventType → ℕ → ThreadId → InstId → Prop) (tr : List Hook) (k : RaceEventType) (t : ThreadId)
    (i j : ℕ) : Prop :=
  ∃ l u inst inst', acc k i t inst ∧ acc l j u inst' ∧ t ≠ u ∧ Conflict k l ∧ ∀ a, Holding tr i t a → ¬ Holding tr j u a

section Positions
variable {tr : List Hook} {n i : ℕ} {t curr : ThreadId} {a : Address} {e : Hook} {P : ℕ → Prop}
  {acc : RaceEventType → ℕ → ThreadId → InstId → Prop} {k l : RaceEventType} {inst : InstId}

theorem lastBefore_succ : LastBefore P (n + 1) i ↔ P n ∧ i = n ∨ ¬ P n ∧ LastBefore P n i := by
  constructor
  · rintro ⟨bound, holds, last⟩
    rcases Nat.lt_succ_iff_lt_or_eq.mp bound with earlier | rfl
    · exact Or.inr ⟨last n earlier (Nat.lt_succ_self n), earlier, holds, fun p after before =>
        last p after (Nat.lt_succ_of_lt before)⟩
    · exact Or.inl ⟨holds, rfl⟩
  · rintro (⟨holds, rfl⟩ | ⟨fails, bound, holds, last⟩)
    · exact ⟨Nat.lt_succ_self i, holds, fun p after before => absurd before (Nat.not_lt.mpr after)⟩
    · refine ⟨Nat.lt_succ_of_lt bound, holds, fun p after before => ?_⟩
      rcases Nat.lt_succ_iff_lt_or_eq.mp before with earlier | rfl
      · exact last p after earlier
      · exact fails

theorem LastBefore.unique {j : ℕ} (first : LastBefore P n i) (second : LastBefore P n j) : i = j := by
  rcases Nat.lt_trichotomy i j with before | same | after
  · exact absurd second.2.1 (first.2.2 j before second.1)
  · exact same
  · exact absurd first.2.1 (second.2.2 i after first.1)

theorem Survives.unique {j : ℕ} (first : Survives acc k t n i) (second : Survives acc k t n j) : i = j := by
  cases k with
  | read => exact LastBefore.unique (show LastBefore (fun p => ∃ inst, acc .read p t inst) n i from first) second
  | write => exact LastBefore.unique (show LastBefore (fun p => ∃ u inst, acc .write p u inst) n i from first) second

theorem Survives.bound (survives : Survives acc k t n i) : i < n := by
  cases k <;> exact survives.1

theorem holding_zero : ¬ Holding tr 0 t a := fun ⟨_, bound, _⟩ => absurd bound (Nat.not_lt_zero _)

theorem holding_succ (here : tr[n]? = some e) :
    Holding tr (n + 1) t a ↔ e.lockOp = some (.take t a) ∨ Holding tr n t a ∧ e.lockOp ≠ some (.drop t a) := by
  constructor
  · rintro ⟨i, bound, ⟨e', taken, op⟩, kept⟩
    rcases Nat.lt_succ_iff_lt_or_eq.mp bound with earlier | rfl
    · refine Or.inr ⟨⟨i, earlier, ⟨e', taken, op⟩, fun j e after before => kept j e after (Nat.lt_succ_of_lt before)⟩, ?_⟩
      exact kept n e earlier (Nat.lt_succ_self n) here
    · cases taken.symm.trans here
      exact Or.inl op
  · rintro (op | ⟨⟨i, bound, taken, kept⟩, stays⟩)
    · exact ⟨n, Nat.lt_succ_self n, ⟨e, here, op⟩, fun j e after before => absurd before (Nat.not_lt.mpr after)⟩
    · refine ⟨i, Nat.lt_succ_of_lt bound, taken, fun j e' after before at_j => ?_⟩
      rcases Nat.lt_succ_iff_lt_or_eq.mp before with earlier | rfl
      · exact kept j e' after earlier at_j
      · cases here.symm.trans at_j
        exact stays

theorem mem_applyOp {map : OrdMap ThreadId Lockset} {op : Option LockOp} :
    a ∈ MultiLock.locksetOf (applyOp map op) t ↔
      op = some (.take t a) ∨ a ∈ MultiLock.locksetOf map t ∧ op ≠ some (.drop t a) := by
  rcases op with _ | ⟨curr, addr⟩ | ⟨curr, addr⟩
  · simp [applyOp]
  · rw [applyOp, locksetOf_insert]
    by_cases own : curr = t
    · simp [own]
    · simp [own]
  · rw [applyOp, locksetOf_insert]
    by_cases own : curr = t
    · simp [own, and_comm]
    · simp [own]

/-- A hook adds what it takes to the set of held mutexes, as to the lockset. -/
theorem locks_succ {map : OrdMap ThreadId Lockset}
    (locks : ∀ t a, a ∈ MultiLock.locksetOf map t ↔ Holding tr n t a) (here : tr[n]? = some e) (t : ThreadId)
    (a : Address) : a ∈ MultiLock.locksetOf (applyOp map e.lockOp) t ↔ Holding tr (n + 1) t a := by
  rw [mem_applyOp, holding_succ here, locks t a]

end Positions

/-- The unit has the record of an access of thread `t` with its lockset. -/
def EraserMeta.Has (m : EraserMeta) : RaceEventType → ThreadId → Lockset → InstId → Prop
  | .write, t, ls, inst => m.writerLockset = ⟨t, ls⟩ ∧ m.writerInst = some inst
  | .read, t, ls, inst => m.readerLockset[t]? = some ⟨t, ls⟩ ∧ m.readerInstTable[t]? = some inst

/-- The records are those of the accesses that survive. -/
structure EraserInv (acc : RaceEventType → ℕ → ThreadId → InstId → Prop) (tr : List Hook) (n : ℕ) (m : EraserMeta) :
    Prop where
  stands : ∀ k t ls inst, m.Has k t ls inst →
    ∃ i, Survives acc k t n i ∧ acc k i t inst ∧ ∀ a, a ∈ ls ↔ Holding tr i t a
  kept : ∀ k t i inst, Survives acc k t n i → acc k i t inst → ∃ ls, m.Has k t ls inst
  keyed : ∀ (t : ThreadId) (tlp : Tlp), m.readerLockset[t]? = some tlp → tlp.first = t
  racy : m.racy = true ↔ ∃ j < n, ∃ k t i, Survives acc k t j i ∧ Violation acc tr k t i j

/-- A position makes one access at most. -/
def OneEach (acc : RaceEventType → ℕ → ThreadId → InstId → Prop) : Prop :=
  ∀ i k l t u inst inst', acc k i t inst → acc l i u inst' → k = l ∧ t = u ∧ inst = inst'

/-- The record of an access of kind `l` by `curr` replaces that of kind `k` by `t`. -/
def Overwrites (l : RaceEventType) (curr : ThreadId) (k : RaceEventType) (t : ThreadId) : Prop :=
  k = l ∧ (l = .write ∨ t = curr)

section Unit
variable {tr : List Hook} {n : ℕ} {acc : RaceEventType → ℕ → ThreadId → InstId → Prop} {m m' : EraserMeta}
  {k l : RaceEventType} {t curr : ThreadId} {inst : InstId} {i : ℕ} {ls currLs : Lockset}
  {report : ThreadId → InstId → RaceReport} {b : DetectorBase (OrdMap ThreadId Lockset)} {x : Address}

theorem EraserInv.blank : EraserInv acc tr 0 {} where
  stands k t ls inst has := by cases k <;> simp [EraserMeta.Has] at has
  kept k t i inst survives := absurd survives.bound (Nat.not_lt_zero _)
  keyed t tlp found := by simp at found
  racy := by simp

theorem survives_idle (idle : ∀ k t inst, ¬ acc k n t inst) :
    Survives acc k t (n + 1) i ↔ Survives acc k t n i := by
  cases k with
  | read => simp only [Survives, lastBefore_succ, idle, exists_false, false_and, not_false_eq_true, true_and, false_or]
  | write => simp only [Survives, lastBefore_succ, idle, exists_false, false_and, not_false_eq_true, true_and, false_or]

theorem EraserInv.skip (inv : EraserInv acc tr n m) (idle : ∀ k t inst, ¬ acc k n t inst) :
    EraserInv acc tr (n + 1) m where
  stands k t ls inst has := by
    obtain ⟨i, survives, rest⟩ := inv.stands k t ls inst has
    exact ⟨i, (survives_idle idle).mpr survives, rest⟩
  kept k t i inst survives access := inv.kept k t i inst ((survives_idle idle).mp survives) access
  keyed := inv.keyed
  racy := by
    rw [exists_lt_succ_iff, ← inv.racy]
    refine ⟨Or.inl, fun either => either.elim id ?_⟩
    rintro ⟨k, t, i, _, l, u, inst, inst', _, access, _⟩
    exact absurd access (idle l u inst')

variable (unique : OneEach acc)

include unique in
theorem survives_succ (access : acc l n curr inst) :
    Survives acc k t (n + 1) i ↔ Overwrites l curr k t ∧ i = n ∨ ¬ Overwrites l curr k t ∧ Survives acc k t n i := by
  cases k with
  | read =>
    have here : (∃ inst, acc .read n t inst) ↔ Overwrites l curr .read t := by
      constructor
      · rintro ⟨inst', read⟩
        obtain ⟨rfl, rfl, _⟩ := unique _ _ _ _ _ _ _ read access
        exact ⟨rfl, Or.inr rfl⟩
      · rintro ⟨rfl, impossible | rfl⟩
        · exact nomatch impossible
        · exact ⟨inst, access⟩
    simp only [Survives, lastBefore_succ, here]
  | write =>
    have here : (∃ u inst, acc .write n u inst) ↔ Overwrites l curr .write t := by
      constructor
      · rintro ⟨u, inst', write⟩
        obtain ⟨rfl, rfl, _⟩ := unique _ _ _ _ _ _ _ write access
        exact ⟨rfl, Or.inl rfl⟩
      · rintro ⟨rfl, _⟩
        exact ⟨curr, inst, access⟩
    simp only [Survives, lastBefore_succ, here]

include unique in
/-- The surviving accesses that violate the discipline with this one are those whose
records are disjoint from the lockset at hand. -/
theorem EraserInv.violation_iff (inv : EraserInv acc tr n m) (access : acc l n curr inst)
    (locks : ∀ a, a ∈ currLs ↔ Holding tr n curr a) :
    (∃ k t i, Survives acc k t n i ∧ Violation acc tr k t i n) ↔
      ∃ k t ls inst', Conflict k l ∧ m.Has k t ls inst' ∧ t ≠ curr ∧ ∀ a ∈ ls, a ∉ currLs := by
  constructor
  · rintro ⟨k, t, i, survives, l', u, inst', inst'', first, second, other, conflict, apart⟩
    obtain ⟨rfl, rfl, _⟩ := unique _ _ _ _ _ _ _ second access
    obtain ⟨ls, has⟩ := inv.kept k t i inst' survives first
    obtain ⟨i', survives', _, held⟩ := inv.stands k t ls inst' has
    cases survives.unique survives'
    exact ⟨k, t, ls, inst', conflict, has, other, fun a member now => apart a ((held a).mp member) ((locks a).mp now)⟩
  · rintro ⟨k, t, ls, inst', conflict, has, other, apart⟩
    obtain ⟨i, survives, first, held⟩ := inv.stands k t ls inst' has
    exact ⟨k, t, i, survives, l, curr, inst', inst, first, access, other, conflict, fun a before now =>
      apart a ((held a).mpr before) ((locks a).mpr now)⟩

include unique in
/-- An access that is looked at. -/
theorem EraserInv.record (inv : EraserInv acc tr n m) (access : acc l n curr inst)
    (locks : ∀ a, a ∈ currLs ↔ Holding tr n curr a)
    (has : ∀ k t ls inst', m'.Has k t ls inst' ↔
      Overwrites l curr k t ∧ t = curr ∧ ls = currLs ∧ inst' = inst ∨ ¬ Overwrites l curr k t ∧ m.Has k t ls inst')
    (keyed : ∀ (t : ThreadId) (tlp : Tlp), m'.readerLockset[t]? = some tlp → tlp.first = t)
    (marked : m'.racy = true ↔ m.racy = true ∨
      ∃ k t ls inst', Conflict k l ∧ m.Has k t ls inst' ∧ t ≠ curr ∧ ∀ a ∈ ls, a ∉ currLs) :
    EraserInv acc tr (n + 1) m' where
  stands k t ls inst' record := by
    rcases (has k t ls inst').mp record with ⟨past, rfl, rfl, rfl⟩ | ⟨spared, old⟩
    · refine ⟨n, (survives_succ unique access).mpr (Or.inl ⟨past, rfl⟩), ?_, locks⟩
      rw [past.1]
      exact access
    · obtain ⟨i, survives, rest⟩ := inv.stands k t ls inst' old
      exact ⟨i, (survives_succ unique access).mpr (Or.inr ⟨spared, survives⟩), rest⟩
  kept k t i inst' survives first := by
    rcases (survives_succ unique access).mp survives with ⟨past, rfl⟩ | ⟨spared, before⟩
    · obtain ⟨_, rfl, rfl⟩ := unique _ _ _ _ _ _ _ first access
      exact ⟨currLs, (has k t currLs inst').mpr (Or.inl ⟨past, rfl, rfl, rfl⟩)⟩
    · obtain ⟨ls, old⟩ := inv.kept k t i inst' before first
      exact ⟨ls, (has k t ls inst').mpr (Or.inr ⟨spared, old⟩)⟩
  keyed := keyed
  racy := by rw [marked, exists_lt_succ_iff, ← inv.racy, inv.violation_iff unique access locks]

end Unit

section Process
variable {tr : List Hook} {n : ℕ} {acc : RaceEventType → ℕ → ThreadId → InstId → Prop} {m m' : EraserMeta}
  {l : RaceEventType} {curr : ThreadId} {inst : InstId} {currLs : Lockset} {b : DetectorBase (OrdMap ThreadId Lockset)}
  {x : Address} {tlp : Tlp} {stored : Option InstId} {out : List DbCall}

theorem checkTlp_iff (report : ThreadId → InstId → RaceReport) :
    (Eraser.checkTlp curr currLs report tlp stored).1 = true ↔
      ∃ inst, stored = some inst ∧ tlp.first ≠ curr ∧ ∀ a ∈ tlp.second, a ∉ currLs := by
  cases stored with
  | none => simp [Eraser.checkTlp]
  | some inst =>
    simp only [Eraser.checkTlp, Option.some.injEq, exists_eq_left', ← Lockset.isDisjoint_iff]
    split
    · next racing => simpa using racing
    · next calm => simpa using calm

theorem checkTlps_iff (report : ThreadId → InstId → RaceReport) (instTable : OrdMap ThreadId InstId) (tlps : List Tlp) :
    (Eraser.checkTlps curr currLs report instTable tlps).1 = true ↔
      ∃ tlp ∈ tlps, ∃ inst, instTable[tlp.first]? = some inst ∧ tlp.first ≠ curr ∧ ∀ a ∈ tlp.second, a ∉ currLs := by
  induction tlps with
  | nil => simp [Eraser.checkTlps]
  | cons tlp rest ih => simp only [Eraser.checkTlps, Bool.or_eq_true, checkTlp_iff, ih, List.exists_mem_cons_iff]

/-- The check of the writer, by the records. -/
theorem checkWriter_iff (report : ThreadId → InstId → RaceReport) :
    (Eraser.checkTlp curr currLs report m.writerLockset m.writerInst).1 = true ↔
      ∃ t ls inst, m.Has .write t ls inst ∧ t ≠ curr ∧ ∀ a ∈ ls, a ∉ currLs := by
  rw [checkTlp_iff]
  constructor
  · rintro ⟨inst, stored, other, apart⟩
    exact ⟨_, _, inst, ⟨rfl, stored⟩, other, apart⟩
  · rintro ⟨t, ls, inst, ⟨same, stored⟩, other, apart⟩
    rw [same]
    exact ⟨inst, stored, other, apart⟩

theorem checkReaders_iff (keyed : ∀ (t : ThreadId) (tlp : Tlp), m.readerLockset[t]? = some tlp → tlp.first = t)
    (report : ThreadId → InstId → RaceReport) :
    (Eraser.checkTlps curr currLs report m.readerInstTable (m.readerLockset.toList.map (·.2))).1 = true ↔
      ∃ t ls inst, m.Has .read t ls inst ∧ t ≠ curr ∧ ∀ a ∈ ls, a ∉ currLs := by
  rw [checkTlps_iff]
  constructor
  · rintro ⟨tlp, member, inst, stored, other, apart⟩
    obtain ⟨⟨t, tlp⟩, entry, rfl⟩ := List.mem_map.mp member
    have found := Std.ExtTreeMap.mem_toList_iff_getElem?_eq_some.mp entry
    obtain rfl := keyed t tlp found
    exact ⟨tlp.first, tlp.second, inst, ⟨found, stored⟩, other, apart⟩
  · rintro ⟨t, ls, inst, ⟨found, stored⟩, other, apart⟩
    exact ⟨⟨t, ls⟩, List.mem_map.mpr ⟨(t, ⟨t, ls⟩), Std.ExtTreeMap.mem_toList_iff_getElem?_eq_some.mpr found, rfl⟩,
      inst, stored, other, apart⟩

theorem process_total (b : DetectorBase (OrdMap ThreadId Lockset)) (l : RaceEventType) (curr : ThreadId) (x : Address)
    (m : EraserMeta) (inst : InstId) : ∃ m' out, eraser.process l b curr x m inst = some (m', out) := by
  cases l <;> exact ⟨_, _, rfl⟩

/-- One call of `ProcessRead` or `ProcessWrite`. -/
theorem EraserInv.process (unique : OneEach acc) (inv : EraserInv acc tr n m) (access : acc l n curr inst)
    (locks : ∀ t a, a ∈ MultiLock.locksetOf b.own t ↔ Holding tr n t a)
    (ran : eraser.process l b curr x m inst = some (m', out)) : EraserInv acc tr (n + 1) m' := by
  cases l with
  | read =>
    let report : ThreadId → InstId → RaceReport := fun thdId writerInst =>
      ⟨x, thdId, writerInst, .write, curr, inst, .read⟩
    have marked : (m.racy || (Eraser.checkTlp curr (MultiLock.locksetOf b.own curr) report m.writerLockset
        m.writerInst).1) = true ↔ m.racy = true ∨ ∃ k t ls inst', Conflict k .read ∧ m.Has k t ls inst' ∧
          t ≠ curr ∧ ∀ a ∈ ls, a ∉ MultiLock.locksetOf b.own curr := by
      rw [Bool.or_eq_true, checkWriter_iff]
      refine or_congr Iff.rfl ⟨fun ⟨t, ls, inst', rest⟩ => ⟨.write, t, ls, inst', Or.inl rfl, rest⟩, ?_⟩
      rintro ⟨k, t, ls, inst', conflict, rest⟩
      obtain rfl : k = .write := conflict.resolve_right nofun
      exact ⟨t, ls, inst', rest⟩
    cases ran
    refine inv.record unique access (locks curr) (fun k t ls inst' => ?_) (fun t tlp found => ?_) marked
    · cases k with
      | write => simp [EraserMeta.Has, Overwrites]
      | read =>
        simp only [EraserMeta.Has, Overwrites, getElem?_insert_thread]
        by_cases own : curr = t
        · subst own
          simp [eq_comm]
        · simp [own, Ne.symm own]
    · simp only [getElem?_insert_thread] at found
      split at found
      · next own =>
        cases found
        exact own
      · exact inv.keyed t tlp found
  | write =>
    let report : RaceEventType → ThreadId → InstId → RaceReport := fun k thdId inst' =>
      ⟨x, thdId, inst', k, curr, inst, .write⟩
    have marked : (m.racy || (Eraser.checkTlp curr (MultiLock.locksetOf b.own curr) (report .write) m.writerLockset
          m.writerInst).1 || (Eraser.checkTlps curr (MultiLock.locksetOf b.own curr) (report .read) m.readerInstTable
          (m.readerLockset.toList.map (·.2))).1) = true ↔ m.racy = true ∨ ∃ k t ls inst', Conflict k .write ∧
          m.Has k t ls inst' ∧ t ≠ curr ∧ ∀ a ∈ ls, a ∉ MultiLock.locksetOf b.own curr := by
      rw [Bool.or_eq_true, Bool.or_eq_true, checkWriter_iff, checkReaders_iff inv.keyed, or_assoc]
      refine or_congr Iff.rfl ⟨?_, ?_⟩
      · rintro (⟨t, ls, inst', rest⟩ | ⟨t, ls, inst', rest⟩)
        · exact ⟨.write, t, ls, inst', Or.inr rfl, rest⟩
        · exact ⟨.read, t, ls, inst', Or.inr rfl, rest⟩
      · rintro ⟨k, t, ls, inst', _, rest⟩
        cases k with
        | write => exact Or.inl ⟨t, ls, inst', rest⟩
        | read => exact Or.inr ⟨t, ls, inst', rest⟩
    cases ran
    refine inv.record unique access (locks curr) (fun k t ls inst' => ?_) inv.keyed marked
    · cases k with
      | read => simp [EraserMeta.Has, Overwrites]
      | write =>
        simp only [EraserMeta.Has, Overwrites, Tlp.mk.injEq, Option.some.injEq, true_and, true_or, not_true_eq_false,
          false_and, or_false, and_assoc]
        simp only [eq_comm]

end Process

/-- Starts and joins of known threads, locks and unlocks, and accesses. -/
def Plain (unitSize : Address) (p : Progress) : Hook → Prop
  | .threadStart _ parent => parent = invalidThdId ∨ parent ∈ p.started
  | .afterPthreadJoin curr child => curr ∈ p.started ∧ child ∈ p.started
  | .afterPthreadMutexLock _ addr | .beforePthreadMutexUnlock _ addr => unitDownAlign addr unitSize = addr
  | .beforeMemRead .. | .beforeMemWrite .. => True
  | _ => False

instance (unitSize : Address) (p : Progress) (e : Hook) : Decidable (Plain unitSize p e) := by
  induction e using Hook.casesOn <;> simp only [Plain] <;> infer_instance

theorem plain_of_all {unitSize : Address} {tr : List Hook}
    (all : ∀ n : Fin tr.length, Plain unitSize (progressAt tr n) (tr.get n)) (n : ℕ) (e : Hook)
    (here : tr[n]? = some e) : Plain unitSize (progressAt tr n) e := by
  obtain ⟨bound, same⟩ := List.getElem?_eq_some_iff.mp here
  exact same ▸ all ⟨n, bound⟩

/-- The base members in a trace of such hooks. -/
structure PlainState (filter : RegionFilter) (unitSize : Address) (p : Progress)
    (b : DetectorBase (OrdMap ThreadId Lockset)) : Prop where
  filter : b.filter = filter
  unitSize : b.unitSize = unitSize
  quiet : ∀ t : ThreadId, b.atomicMap[t]?.getD false = false
  counted : b.Counted p
  known : ∀ t ∈ p.started, t ∈ b.currVcMap

section Runs
variable {filter : RegionFilter} {unitSize : Address} {tr : List Hook} {n : ℕ} {p : Progress} {e : Hook}
  {b b' : DetectorBase (OrdMap ThreadId Lockset)} {d next : Detector (OrdMap ThreadId Lockset) EraserMeta}
  {out : List DbCall} {x : Address} {k : RaceEventType} {curr : ThreadId} {inst : InstId} {addr size : Address}

theorem eraser_grows : eraser.Grows where
  lock ran := by
    cases ran
    exact .of_clocks rfl rfl rfl
  unlock ran := by
    cases ran
    exact .of_clocks rfl rfl rfl
  join ran := ⟨_, ran, .refl _ _⟩

theorem PlainState.monitored_iff (state : PlainState filter unitSize p b) (curr : ThreadId) (addr : Address) :
    Detector.monitored eraser b curr addr = true ↔ filter.filter addr = false ∧ gateOpen p = true := by
  have gated : eraser.gate b = gateOpen p := gate_of_counted state.counted
  simp [Detector.monitored, state.filter, state.quiet curr, gated]

/-- A hook that is no access. -/
theorem PlainState.onHook (state : PlainState filter unitSize p b) (plain : Plain unitSize p e) :
    ∃ b', b.onHook eraser e = some b' ∧ PlainState filter unitSize (p.next e) b' := by
  have settled : ∀ {b'}, b.onHook eraser e = some b' → b'.filter = b.filter → b'.unitSize = b.unitSize →
      (∀ t : ThreadId, b'.atomicMap[t]?.getD false = false) → (∀ t ∈ (p.next e).started, t ∈ b'.currVcMap) →
      ∃ b', b.onHook eraser e = some b' ∧ PlainState filter unitSize (p.next e) b' := by
    intro b' ran filters sizes quiet known
    exact ⟨b', ran, filters.trans state.filter, sizes.trans state.unitSize, quiet,
      eraser_grows.counted ran state.counted, known⟩
  cases e with
  | threadStart curr parent =>
    have started : ∃ b', b.threadStart curr parent = some b' ∧ b'.filter = b.filter ∧ b'.unitSize = b.unitSize ∧
        b'.atomicMap = b.atomicMap.insert curr false ∧ curr ∈ b'.currVcMap := by
      by_cases main : parent = invalidThdId
      · refine ⟨(b.setVc curr (({} : VectorClock).increment curr)).enroll curr, ?_, rfl, rfl, rfl, ?_⟩
        · rw [main, b.threadStart_main curr]
        · exact Std.ExtTreeMap.mem_insert_self
      · have member := Std.ExtTreeMap.getElem?_eq_some_getElem (state.known parent (plain.resolve_left main))
        refine ⟨_, b.threadStart_child curr main member, ?_⟩
        exact ⟨rfl, rfl, rfl, Std.ExtTreeMap.mem_insert_self⟩
    obtain ⟨b', ran, filters, sizes, atomic, member⟩ := started
    refine settled ran filters sizes (fun t => ?_) fun t known => ?_
    · rw [atomic, getElem?_insert_thread]
      split
      · rfl
      · exact state.quiet t
    · rcases List.mem_cons.mp known with rfl | before
      · exact member
      · exact threadStart_mem ran (state.known t before)
  | afterPthreadJoin curr child =>
    obtain ⟨currVc, currKnown⟩ : ∃ vc, b.currVcMap[curr]? = some vc :=
      ⟨_, Std.ExtTreeMap.getElem?_eq_some_getElem (state.known curr plain.1)⟩
    obtain ⟨childVc, childKnown⟩ : ∃ vc, b.currVcMap[child]? = some vc :=
      ⟨_, Std.ExtTreeMap.getElem?_eq_some_getElem (state.known child plain.2)⟩
    have ran : b.afterPthreadJoin curr child =
        some { b.setVc curr (currVc.join childVc) with threadJoinC := b.threadJoinC + 1 } := by
      simp [DetectorBase.afterPthreadJoin, currKnown, childKnown]
    refine settled ran rfl rfl state.quiet fun t known => ?_
    exact eraser_grows.mem (e := .afterPthreadJoin curr child) ran (state.known t known)
  | afterPthreadMutexLock curr addr =>
    have aligned : b.isAligned addr := by
      rw [DetectorBase.isAligned, state.unitSize]
      exact plain
    have ran : b.afterPthreadMutexLock eraser curr addr = eraser.processLock
        { b with mutexMetaTable := ensureMeta {} b.mutexMetaTable addr } curr addr := by
      simp [DetectorBase.afterPthreadMutexLock, debugAssert, aligned]
    exact settled ran rfl rfl state.quiet state.known
  | beforePthreadMutexUnlock curr addr =>
    have aligned : b.isAligned addr := by
      rw [DetectorBase.isAligned, state.unitSize]
      exact plain
    have ran : b.beforePthreadMutexUnlock eraser curr addr = eraser.processUnlock
        { b with mutexMetaTable := ensureMeta {} b.mutexMetaTable addr } curr addr := by
      simp [DetectorBase.beforePthreadMutexUnlock, debugAssert, aligned]
    refine settled ran rfl rfl state.quiet fun t known => ?_
    rw [Progress.next, Progress.started_unlock] at known
    exact state.known t known
  | beforeMemRead | beforeMemWrite => exact settled rfl rfl rfl state.quiet state.known
  | _ => exact absurd plain id

/-- Every such hook goes through. -/
theorem PlainState.step (state : PlainState filter unitSize p d.toDetectorBase) (plain : Plain unitSize p e) :
    ∃ next out, d.step eraser e = some (next, out) ∧ PlainState filter unitSize (p.next e) next.toDetectorBase := by
  have silent : d.step eraser e = d.silent (d.toDetectorBase.onHook eraser e) →
      ∃ next out, d.step eraser e = some (next, out) ∧ PlainState filter unitSize (p.next e) next.toDetectorBase := by
    intro same
    obtain ⟨b', ran, kept⟩ := state.onHook plain
    refine ⟨d.onBase b', [], ?_, kept⟩
    rw [same, Detector.silent, ran]
    rfl
  have accessed : ∀ k curr inst addr size, e = RaceEventType.hook k curr inst addr size →
      ∃ next out, d.step eraser e = some (next, out) ∧ PlainState filter unitSize (p.next e) next.toDetectorBase := by
    rintro k curr inst addr size rfl
    have same : p.next (k.hook curr inst addr size) = p := by cases k <;> rfl
    rw [step_hook, same, Detector.beforeMem]
    split
    · obtain ⟨table, outs, looped, _⟩ := accessLoop_exact eraser.newMeta
        (fun iaddr accessed => eraser.process k d.toDetectorBase curr iaddr accessed inst)
        (unitsOf d.unitSize addr size) (unitsOf_nodup _ _ _) d.metaTable
        fun x _ => process_total d.toDetectorBase k curr x _ inst
      rw [looped]
      exact ⟨{ d with metaTable := table }, outs, rfl, state⟩
    · exact ⟨d, [], rfl, state⟩
  cases e with
  | beforeMemRead curr inst addr size => exact accessed .read curr inst addr size rfl
  | beforeMemWrite curr inst addr size => exact accessed .write curr inst addr size rfl
  | imageUnload | beforeRealloc | beforeFree => exact absurd plain id
  | _ => exact silent rfl

theorem Plain.frees (plain : Plain unitSize p e) : e.frees = false := by
  cases e <;> first | rfl | exact absurd plain id

/-- The accesses that the hooks look at. -/
abbrev looked (filter : RegionFilter) (unitSize : Address) (tr : List Hook) (x : Address) :
    RaceEventType → ℕ → ThreadId → InstId → Prop := fun k => Looked filter unitSize tr k x

theorem looked_oneEach : OneEach (looked filter unitSize tr x) := by
  rintro i k l t u inst inst' ⟨_, _, first, _⟩ ⟨_, _, second, _⟩
  obtain ⟨kind, thread, same, _⟩ := RaceEventType.hook_inj (Option.some.inj (first.symm.trans second))
  exact ⟨kind, thread, same⟩

/-- What holds after `n` hooks. -/
structure EraserState (filter : RegionFilter) (unitSize : Address) (tr : List Hook) (n : ℕ)
    (d : Detector (OrdMap ThreadId Lockset) EraserMeta) : Prop where
  base : PlainState filter unitSize (progressAt tr n) d.toDetectorBase
  locks : ∀ t a, a ∈ MultiLock.locksetOf d.own t ↔ Holding tr n t a
  units : ∀ x : Address, EraserInv (looked filter unitSize tr x) tr n (d.metaTable[x]?.getD {})

theorem EraserState.step (state : EraserState filter unitSize tr n d) (here : tr[n]? = some e)
    (plain : Plain unitSize (progressAt tr n) e) :
    ∃ next out, d.step eraser e = some (next, out) ∧ EraserState filter unitSize tr (n + 1) next := by
  obtain ⟨next, out, stepped, base⟩ := state.base.step plain
  refine ⟨next, out, stepped, ?_, ?_, ?_⟩
  · rw [progressAt_succ here]
    exact base
  · intro t a
    rw [show next.own = applyOp d.own e.lockOp from eraser_keepsLocks.step stepped]
    exact locks_succ state.locks here t a
  · intro x
    have unit := Detector.step_meta stepped x
    rw [show eraser.newMeta = {} from rfl] at unit
    have before := state.units x
    generalize d.metaTable[x]?.getD {} = m at unit before
    generalize next.metaTable[x]?.getD {} = m' at unit
    cases unit with
    | kept idle =>
      refine before.skip fun k t inst access => ?_
      obtain ⟨addr, size, there, member, passes, opened⟩ := access
      have same := Option.some.inj (here.symm.trans there)
      refine idle k t inst addr size same ((state.base.monitored_iff t addr).mpr ⟨passes, opened⟩) ?_
      rw [state.base.unitSize]
      exact member
    | freed frees => exact nomatch plain.frees.symm.trans frees
    | @processed _ k curr inst addr size calls hook member monitored ran among =>
      obtain ⟨passes, opened⟩ := (state.base.monitored_iff curr addr).mp monitored
      rw [state.base.unitSize] at member
      exact before.process looked_oneEach ⟨addr, size, hook ▸ here, member, passes, opened⟩ state.locks ran

/-- Eraser marks exactly the units with a violation whose first access is, at the second
one, still the last write, or the last read of its thread. -/
theorem eraser_racy_iff {unitSize : Address} (trackRacyInst : Bool) {filter : RegionFilter} {tr : List Hook}
    (plain : ∀ n e, tr[n]? = some e → Plain unitSize (progressAt tr n) e) :
    ∃ last outs, Detector.run eraser (start _ unitSize trackRacyInst filter ∅) tr = some (last, outs) ∧
      ∀ x, (metaAt last {} x).racy = true ↔ ∃ j < tr.length, ∃ k t i,
        Survives (looked filter unitSize tr x) k t j i ∧ Violation (looked filter unitSize tr x) tr k t i j := by
  let first : Detector (OrdMap ThreadId Lockset) EraserMeta := start _ unitSize trackRacyInst filter ∅
  have initial : EraserState filter unitSize tr 0 first := by
    refine ⟨⟨rfl, rfl, fun t => ?_, ⟨rfl, rfl⟩, fun t impossible => nomatch impossible⟩, fun t a => ?_, fun x => ?_⟩
    · simp [first, start]
    · exact iff_of_false (by simp [first, start, MultiLock.locksetOf]) holding_zero
    · simpa [first, start] using EraserInv.blank
  obtain ⟨last, outs, ran, state, _⟩ := Runs.run_invariant (EraserState filter unitSize tr) (fun _ _ => True) tr
    (fun n d e here state => by
      obtain ⟨next, out, stepped, kept⟩ := state.step here (plain n e here)
      exact ⟨next, out, stepped, kept, trivial⟩) first initial
  exact ⟨last, outs, ran, fun x => (state.units x).racy⟩

/-- Thread 1 writes under mutex 8 and then under mutex 16, thread 2 under mutex 16. -/
def overwritten : List Hook :=
  [.threadStart 1 invalidThdId, .threadStart 2 1,
    .afterPthreadMutexLock 1 8, .beforeMemWrite 1 7 64 4, .beforePthreadMutexUnlock 1 8,
    .afterPthreadMutexLock 1 16, .beforeMemWrite 1 9 64 4, .beforePthreadMutexUnlock 1 16,
    .afterPthreadMutexLock 2 16, .beforeMemWrite 2 11 64 4]

theorem eraser_racy_iff_overwritten :
    ∃ last outs, Detector.run eraser (start _ 4 false (.addRegion {} 64 4) ∅) overwritten = some (last, outs) ∧
      ∀ x, (metaAt last {} x).racy = true ↔ ∃ j < overwritten.length, ∃ k t i,
        Survives (looked (.addRegion {} 64 4) 4 overwritten x) k t j i ∧
          Violation (looked (.addRegion {} 64 4) 4 overwritten x) overwritten k t i j :=
  eraser_racy_iff false (plain_of_all (by decide))

/-- The two writes to unit 64 under disjoint locksets are not compared. -/
theorem eraser_misses_overwritten : Conforms 4 overwritten ∧
    (∃ i j, i < j ∧ Violation (looked (.addRegion {} 64 4) 4 overwritten 64) overwritten .write 1 i j) ∧
    ∃ last outs, Detector.run eraser (start _ 4 false (.addRegion {} 64 4) ∅) overwritten = some (last, outs) ∧
      (metaAt last {} (64 : Address)).racy = false := by
  refine ⟨by decide, ⟨3, 9, by decide, .write, 2, 7, 11, ⟨64, 4, rfl, by decide +kernel, by decide +kernel, by decide⟩,
    ⟨64, 4, rfl, by decide +kernel, by decide +kernel, by decide⟩, by decide, Or.inl rfl, ?_⟩, ?_⟩
  · rintro a ⟨i, bound, ⟨e, here, op⟩, _⟩ ⟨j, bound', ⟨e', here', op'⟩, _⟩
    have first : a = 8 := by
      interval_cases i <;> cases here <;> simp_all [Hook.lockOp]
    have second : a = 16 := by
      interval_cases j <;> cases here' <;> simp_all [Hook.lockOp]
    exact absurd (first.symm.trans second) (by decide)
  · have test : (Detector.run eraser (start _ 4 false (.addRegion {} 64 4) ∅) overwritten).any (fun r =>
        !(metaAt r.1 {} (64 : Address)).racy) = true := by decide +kernel
    obtain ⟨⟨last, outs⟩, ran, calm⟩ := (Option.any_eq_true _ _).mp test
    exact ⟨last, outs, ran, by simpa using calm⟩

end Runs
end Maple.Pintool
