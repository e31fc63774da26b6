import Maple.Idiom.PredictorTrace

/-! Acquisitions of locks in a history, and the versions by which a lock set names them. -/
namespace Maple.Idiom.Predictor

/-- At place `i` the thread holds the lock by the acquisition at place `j`. -/
structure Acquired (h : List Happening) (t : ThreadId) (l : Address) (j i : ℕ) : Prop where
  locked : h[j]? = some (.lock t l)
  earlier : j < i
  kept : ∀ k, j < k → k < i → h[k]? ≠ some (.lock t l) ∧ h[k]? ≠ some (.unlock t l)

def Happening.isLock : Happening → Bool
  | .lock .. => true
  | _ => false

/-- The version that `Add` gives to the acquisition at a place. -/
def versionAt (h : List Happening) (j : ℕ) : ℕ := (h.take (j + 1)).countP Happening.isLock

/-- The lock set of a thread at a place. -/
def Snapshot (h : List Happening) (t : ThreadId) (i : ℕ) (ls : LockSet) : Prop :=
  ∀ (l : Address) v, ls[l]? = some v ↔ ∃ j, Acquired h t l j i ∧ v = versionAt h j

variable {h r : List Happening} {t t' : ThreadId} {l l' : Address} {i j j' k : ℕ} {ls ls' : LockSet}

namespace Acquired

theorem place_lt (acquired : Acquired h t l j i) : j < h.length := (List.getElem?_eq_some_iff.mp acquired.locked).1

/-- The acquisition still holds at an earlier place behind it. -/
theorem mono (acquired : Acquired h t l j i) (before : k ≤ i) (behind : j < k) : Acquired h t l j k :=
  ⟨acquired.locked, behind, fun n after under => acquired.kept n after (under.trans_le before)⟩

end Acquired

theorem acquired_append (bound : i ≤ h.length) : Acquired (h ++ r) t l j i ↔ Acquired h t l j i := by
  have same : ∀ n, n < i → (h ++ r)[n]? = h[n]? := fun n under =>
    List.getElem?_append_left (under.trans_le bound)
  constructor
  · rintro ⟨locked, earlier, kept⟩
    exact ⟨same j earlier ▸ locked, earlier, fun k after under => same k under ▸ kept k after under⟩
  · rintro ⟨locked, earlier, kept⟩
    exact ⟨(same j earlier).trans locked, earlier, fun k after under => by rw [same k under]; exact kept k after under⟩

theorem versionAt_append (bound : j < h.length) : versionAt (h ++ r) j = versionAt h j := by
  rw [versionAt, versionAt, List.take_append_of_le_length bound]

/-- One more place behind the end of a history. -/
theorem acquired_concat (x : Happening) : Acquired (h ++ [x]) t l j (h.length + 1) ↔
    x = .lock t l ∧ j = h.length ∨ x ≠ .lock t l ∧ x ≠ .unlock t l ∧ Acquired h t l j h.length := by
  have last : (h ++ [x])[h.length]? = some x := List.getElem?_concat_length
  constructor
  · intro acquired
    rcases Nat.lt_succ_iff_lt_or_eq.mp acquired.earlier with before | rfl
    · obtain ⟨not_lock, not_unlock⟩ := acquired.kept h.length before (Nat.lt_succ_self _)
      rw [last] at not_lock not_unlock
      refine Or.inr ⟨fun same => not_lock (congrArg some same), fun same => not_unlock (congrArg some same), ?_⟩
      exact (acquired_append le_rfl).mp (acquired.mono (Nat.le_succ _) before)
    · have locked := acquired.locked
      rw [last] at locked
      exact Or.inl ⟨Option.some.inj locked, rfl⟩
  · rintro (⟨rfl, rfl⟩ | ⟨not_lock, not_unlock, acquired⟩)
    · exact ⟨last, Nat.lt_succ_self _, fun k after under => by omega⟩
    · have before := (acquired_append (r := [x]) le_rfl).mpr acquired
      refine ⟨before.locked, before.earlier.trans (Nat.lt_succ_self _), fun k after under => ?_⟩
      rcases Nat.lt_succ_iff_lt_or_eq.mp under with within | rfl
      · exact before.kept k after within
      · rw [last]
        exact ⟨fun same => not_lock (Option.some.inj same), fun same => not_unlock (Option.some.inj same)⟩

/-- Later locks have greater versions. -/
theorem versionAt_lt (less : j < j') (locked : h[j']? = some (.lock t l)) : versionAt h j < versionAt h j' := by
  obtain ⟨bound, at_place⟩ := List.getElem?_eq_some_iff.mp locked
  have split : h.take (j' + 1) = h.take j' ++ [.lock t l] := by
    rw [List.take_succ_eq_append_getElem bound, at_place]
  have prefix_le : versionAt h j ≤ (h.take j').countP Happening.isLock := by
    apply List.Sublist.countP_le
    exact (List.take_prefix_take_left (by omega)).sublist
  have counted : versionAt h j' = (h.take j').countP Happening.isLock + 1 := by
    rw [versionAt, split, List.countP_append]
    rfl
  rw [counted]
  exact Nat.lt_succ_of_le prefix_le

theorem versionAt_injective (first : h[j]? = some (.lock t l)) (second : h[j']? = some (.lock t' l'))
    (same : versionAt h j = versionAt h j') : j = j' := by
  rcases Nat.lt_trichotomy j j' with less | equal | more
  · exact absurd same (versionAt_lt less second).ne
  · exact equal
  · exact absurd same (versionAt_lt more first).ne'

namespace Snapshot

theorem append (snapshot : Snapshot h t i ls) (bound : i ≤ h.length) : Snapshot (h ++ r) t i ls := by
  intro l v
  rw [snapshot l v]
  apply exists_congr
  intro j
  rw [acquired_append bound]
  apply and_congr_right
  intro acquired
  rw [versionAt_append acquired.place_lt]

theorem mem_iff (snapshot : Snapshot h t i ls) : l ∈ ls ↔ ∃ j, Acquired h t l j i := by
  rw [Std.ExtTreeMap.mem_iff_isSome_getElem?, Option.isSome_iff_exists]
  constructor
  · rintro ⟨v, held⟩
    obtain ⟨j, acquired, -⟩ := (snapshot l v).mp held
    exact ⟨j, acquired⟩
  · rintro ⟨j, acquired⟩
    exact ⟨versionAt h j, (snapshot l _).mpr ⟨j, acquired, rfl⟩⟩

/-- `Exist` asks for the same acquisition. -/
theorem exist_iff (snapshot : Snapshot h t i ls) (locked : h[j]? = some (.lock t l)) :
    ls.exist l (versionAt h j) = true ↔ Acquired h t l j i := by
  rw [LockSet.exist, decide_eq_true_eq, snapshot l]
  constructor
  · rintro ⟨j', acquired, same⟩
    rw [versionAt_injective locked acquired.locked same]
    exact acquired
  · intro acquired
    exact ⟨j, acquired, rfl⟩

theorem empty (none_locked : ∀ l, .lock t l ∉ h) : Snapshot h t i ∅ := by
  intro l v
  refine iff_of_false (by simp) ?_
  rintro ⟨j, acquired, -⟩
  exact none_locked l (List.mem_of_getElem? acquired.locked)

/-- A happening that is no operation on a lock of the thread. -/
theorem other {x : Happening} (snapshot : Snapshot h t h.length ls) (not_lock : ∀ l, x ≠ .lock t l)
    (not_unlock : ∀ l, x ≠ .unlock t l) : Snapshot (h ++ [x]) t (h.length + 1) ls := by
  intro l v
  rw [snapshot l v]
  apply exists_congr
  intro j
  rw [acquired_concat]
  simp only [not_lock, not_unlock, false_and, ne_eq, not_false_eq_true, true_and, false_or]
  apply and_congr_right
  intro acquired
  rw [versionAt_append acquired.place_lt]

theorem lock (snapshot : Snapshot h t h.length ls) (l : Address) :
    Snapshot (h ++ [.lock t l]) t (h.length + 1) (ls.insert l (h.countP Happening.isLock + 1)) := by
  have version : versionAt (h ++ [.lock t l]) h.length = h.countP Happening.isLock + 1 := by
    rw [versionAt, List.take_of_length_le (by simp), List.countP_append]
    rfl
  intro l' v
  rw [Std.ExtTreeMap.getElem?_insert]
  simp only [acquired_concat, Std.compare_eq_iff_eq]
  by_cases same : l = l'
  · subst same
    simp only [if_true, true_and, Option.some.injEq, ne_eq, not_true_eq_false, false_and, or_false, exists_eq_left, version]
    exact eq_comm
  · have not_lock : Happening.lock t l ≠ .lock t l' := by simp [same]
    rw [if_neg same, snapshot l' v]
    apply exists_congr
    intro j
    simp only [not_lock, false_and, ne_eq, not_false_eq_true, reduceCtorEq, true_and, false_or]
    apply and_congr_right
    intro acquired
    rw [versionAt_append acquired.place_lt]

theorem unlock (snapshot : Snapshot h t h.length ls) (l : Address) :
    Snapshot (h ++ [.unlock t l]) t (h.length + 1) (ls.erase l) := by
  intro l' v
  rw [Std.ExtTreeMap.getElem?_erase]
  simp only [acquired_concat, Std.compare_eq_iff_eq]
  by_cases same : l = l'
  · subst same
    simp
  · have not_unlock : Happening.unlock t l ≠ .unlock t l' := by simp [same]
    rw [if_neg same, snapshot l' v]
    apply exists_congr
    intro j
    simp only [not_unlock, false_and, ne_eq, not_false_eq_true, reduceCtorEq, true_and, false_or]
    apply and_congr_right
    intro acquired
    rw [versionAt_append acquired.place_lt]

end Snapshot

/-- A place where the thread accesses the meta. -/
def AccessAt (h : List Happening) (m : MetaId) (t : ThreadId) (i : ℕ) : Prop :=
  ∃ a, h[i]? = some (.access a) ∧ a.metaId = m ∧ a.thdId = t

/-- The flagged locks of an access, the first flag: there is no earlier access in the acquisition. -/
structure FirstExact (h : List Happening) (m : MetaId) (t : ThreadId) (i : ℕ) (fls : FLockSet) : Prop where
  keys : ∀ l, l ∈ fls.lockFlagTable ↔ ∃ j, Acquired h t l j i
  first : ∀ (l : Address) flag j, fls.lockFlagTable[l]? = some flag → Acquired h t l j i →
    (flag.1 = true ↔ ∀ k, j < k → k < i → ¬AccessAt h m t k)

/-- The last flag: there is no later access in the acquisition. -/
structure FlagsExact (h : List Happening) (m : MetaId) (t : ThreadId) (i : ℕ) (fls : FLockSet) : Prop
    extends FirstExact h m t i fls where
  last : ∀ (l : Address) flag j, fls.lockFlagTable[l]? = some flag → Acquired h t l j i →
    (flag.2 = true ↔ ∀ k, i < k → AccessAt h m t k → ¬Acquired h t l j k)

/-- The last access of the thread to the meta so far. -/
structure LastAt (h : List Happening) (m : MetaId) (t : ThreadId) (i : ℕ) : Prop where
  here : AccessAt h m t i
  newest : ∀ k, AccessAt h m t k → k ≤ i

variable {m : MetaId} {flagged : FLockSet} {x : Happening}

theorem AccessAt.lt (here : AccessAt h m t i) : i < h.length := by
  obtain ⟨a, found, -⟩ := here
  exact (List.getElem?_eq_some_iff.mp found).1

theorem accessAt_append (bound : i < h.length) : AccessAt (h ++ r) m t i ↔ AccessAt h m t i := by
  rw [AccessAt, AccessAt, List.getElem?_append_left bound]

theorem accessAt_length : AccessAt (h ++ [x]) m t h.length ↔ ∃ a, x = .access a ∧ a.metaId = m ∧ a.thdId = t := by
  rw [AccessAt, List.getElem?_concat_length]
  simp only [Option.some.injEq]

theorem AccessAt.append (here : AccessAt h m t i) : AccessAt (h ++ r) m t i := (accessAt_append here.lt).mpr here

section Loops

/-- The loops over a lock set that write one flag for each lock. -/
theorem getElem?_flagLoop (f : Address → ℕ → Bool × Bool → Bool × Bool) (table : OrdMap Address (Bool × Bool))
    (ls : LockSet) (l : Address) :
    (ls.toList.foldl (fun table entry => table.insert entry.1
      (f entry.1 entry.2 (table[entry.1]?.getD (false, false)))) table)[l]? =
    match ls[l]? with
    | some v => some (f l v (table[l]?.getD (false, false)))
    | none => table[l]? := by
  have listed : ∀ v, (l, v) ∈ ls.toList ↔ ls[l]? = some v := fun v =>
    Std.ExtTreeMap.mem_toList_iff_getElem?_eq_some
  have distinct : ls.toList.Pairwise fun e f => e.1 ≠ f.1 :=
    Std.ExtTreeMap.distinct_keys_toList.imp fun apart same => apart (by simp [same])
  revert listed
  generalize ls[l]? = got
  generalize ls.toList = entries at distinct
  intro listed
  induction entries generalizing table got with
  | nil =>
    cases got with
    | none => rfl
    | some v => exact nomatch (listed v).mpr rfl
  | cons entry rest ih =>
    obtain ⟨behind, distinct⟩ := List.pairwise_cons.mp distinct
    rw [List.foldl_cons]
    by_cases own : entry.1 = l
    · have here : got = some entry.2 := (listed entry.2).mp (by simp [← own])
      subst here
      have gone : ∀ v, (l, v) ∈ rest ↔ (none : Option ℕ) = some v := fun v =>
        iff_of_false (fun later => behind _ later own) nofun
      rw [ih _ none distinct gone]
      simp [own]
    · have still : ∀ v, (l, v) ∈ rest ↔ got = some v := by
        intro v
        rw [← listed v, List.mem_cons]
        exact (or_iff_right fun same => own (congrArg Prod.fst same).symm).symm
      rw [ih _ got distinct still]
      simp [own]

theorem getElem?_updateFirstFlag (lastLs currLs : LockSet) (l : Address) :
    (({} : FLockSet).updateFirstFlag lastLs currLs).lockFlagTable[l]? =
      currLs[l]?.map fun v => (!lastLs.exist l v, false) := by
  refine (getElem?_flagLoop (fun l v flag => (!lastLs.exist l v || flag.1, false)) ∅ currLs l).trans ?_
  cases currLs[l]? <;> simp

theorem getElem?_updateLastFlag (fls : FLockSet) (lastLs : LockSet) (currLs : Option LockSet) (l : Address) :
    (fls.updateLastFlag lastLs currLs).lockFlagTable[l]? =
      match lastLs[l]? with
      | some v =>
        let flag := fls.lockFlagTable[l]?.getD (false, false)
        some (flag.1, !currLs.any (·.exist l v) || flag.2)
      | none => fls.lockFlagTable[l]? :=
  getElem?_flagLoop (fun l v flag => (flag.1, !currLs.any (fun ls : LockSet => ls.exist l v) || flag.2))
    fls.lockFlagTable lastLs l

end Loops

section Flags

theorem FirstExact.append (exact_ : FirstExact h m t i flagged) (bound : i ≤ h.length) :
    FirstExact (h ++ r) m t i flagged where
  keys l := by
    rw [exact_.keys l]
    exact exists_congr fun j => (acquired_append bound).symm
  first l flag j found acquired := by
    rw [exact_.first l flag j found ((acquired_append bound).mp acquired)]
    apply forall_congr'
    intro k
    refine imp_congr_right fun _ => imp_congr_right fun under => not_congr ?_
    exact (accessAt_append (under.trans_le bound)).symm

/-- The first flags of a new access, from the lock set of the one before it. -/
theorem firstExact_new (now : Snapshot h t h.length ls) (last : (∀ k, ¬AccessAt h m t k) ∧ ls' = ∅ ∨
      ∃ i, LastAt h m t i ∧ Snapshot h t i ls') :
    FirstExact h m t h.length (({} : FLockSet).updateFirstFlag ls' ls) := by
  constructor
  case keys =>
    intro l
    rw [← now.mem_iff, Std.ExtTreeMap.mem_iff_isSome_getElem?, Std.ExtTreeMap.mem_iff_isSome_getElem?,
      getElem?_updateFirstFlag, Option.isSome_map]
  case first =>
    intro l flag j found acquired
    rw [getElem?_updateFirstFlag, (now l _).mpr ⟨j, acquired, rfl⟩] at found
    cases found
    rw [Bool.not_eq_true', ← Bool.not_eq_true]
    rcases last with ⟨never, rfl⟩ | ⟨i, last, before⟩
    · refine iff_of_true (by simp [LockSet.exist]) fun k _ _ => never k
    · rw [before.exist_iff acquired.locked]
      constructor
      · -- the acquisition is newer than the access before
        intro newer k after under access
        apply newer
        have older := last.newest k access
        exact acquired.mono last.here.lt.le (after.trans_le older)
      · intro none_since still
        exact none_since i still.earlier last.here.lt last.here

/-- The flags of an access are complete when the next one of its thread, or the free, is known. -/
theorem flagsExact_close (currLs : Option LockSet) (snapshot : Snapshot h t i ls) (first : FirstExact h m t i flagged)
    (unset : ∀ (l : Address) flag, flagged.lockFlagTable[l]? = some flag → flag.2 = false) (bound : i < h.length)
    (closes : ∀ l j, Acquired h t l j i → (currLs.any (·.exist l (versionAt h j)) = true ↔
      ∃ k, i < k ∧ AccessAt (h ++ r) m t k ∧ Acquired (h ++ r) t l j k)) :
    FlagsExact (h ++ r) m t i (flagged.updateLastFlag ls currLs) := by
  have stored : ∀ l j, Acquired h t l j i → ∃ flag, flagged.lockFlagTable[l]? = some flag ∧
      (flagged.updateLastFlag ls currLs).lockFlagTable[l]? =
        some (flag.1, !currLs.any (·.exist l (versionAt h j))) := by
    intro l j acquired
    obtain ⟨flag, found⟩ := Option.isSome_iff_exists.mp
      (Std.ExtTreeMap.mem_iff_isSome_getElem?.mp ((first.keys l).mpr ⟨j, acquired⟩))
    refine ⟨flag, found, ?_⟩
    rw [getElem?_updateLastFlag, (snapshot l _).mpr ⟨j, acquired, rfl⟩, found]
    simp [unset l flag found]
  have first' := first.append (r := r) bound.le
  constructor
  case toFirstExact =>
    constructor
    case keys =>
      intro l
      rw [← first'.keys l, Std.ExtTreeMap.mem_iff_isSome_getElem?, Std.ExtTreeMap.mem_iff_isSome_getElem?,
        getElem?_updateLastFlag]
      cases held : ls[l]? with
      | none => rfl
      | some v =>
        obtain ⟨j, acquired, -⟩ := (snapshot l v).mp held
        obtain ⟨flag, found, -⟩ := stored l j acquired
        simp [found]
    case first =>
      intro l flag j found acquired
      obtain ⟨flag', found', updated⟩ := stored l j ((acquired_append bound.le).mp acquired)
      cases found.symm.trans updated
      exact first'.first l flag' j found' acquired
  case last =>
    intro l flag j found acquired
    have acquired' := (acquired_append bound.le).mp acquired
    obtain ⟨flag', -, updated⟩ := stored l j acquired'
    cases found.symm.trans updated
    rw [Bool.not_eq_true', ← Bool.not_eq_true, closes l j acquired']
    simp only [not_exists, not_and]

/-- The next access is known. -/
theorem flagsExact_next (snapshot : Snapshot h t i ls) (first : FirstExact h m t i flagged)
    (unset : ∀ (l : Address) flag, flagged.lockFlagTable[l]? = some flag → flag.2 = false) (last : LastAt h m t i)
    (now : Snapshot h t h.length ls') (next : AccessAt (h ++ [x]) m t h.length) :
    FlagsExact (h ++ [x]) m t i (flagged.updateLastFlag ls (some ls')) := by
  apply flagsExact_close (some ls') snapshot first unset last.here.lt
  intro l j acquired
  rw [Option.any_some, now.exist_iff acquired.locked, ← acquired_append (r := [x]) le_rfl]
  constructor
  · intro still
    exact ⟨h.length, last.here.lt, next, still⟩
  · rintro ⟨k, after, access, still⟩
    have bound := access.lt
    rw [List.length_append, List.length_singleton] at bound
    rcases Nat.lt_succ_iff_lt_or_eq.mp bound with before | rfl
    · have older := last.newest k ((accessAt_append before).mp access)
      exact absurd after (Nat.not_lt.mpr older)
    · exact still

/-- The memory is freed. -/
theorem flagsExact_free (snapshot : Snapshot h t i ls) (first : FirstExact h m t i flagged)
    (unset : ∀ (l : Address) flag, flagged.lockFlagTable[l]? = some flag → flag.2 = false) (last : LastAt h m t i) :
    FlagsExact h m t i (flagged.updateLastFlag ls none) := by
  have closed := flagsExact_close (r := []) none snapshot first unset last.here.lt (by
    intro l j acquired
    refine iff_of_false nofun ?_
    rintro ⟨k, after, access, -⟩
    rw [List.append_nil] at access
    exact absurd after (Nat.not_lt.mpr (last.newest k access)))
  rwa [List.append_nil] at closed

/-- Nothing changes when a later access is known, or none comes. -/
theorem FlagsExact.append (exact_ : FlagsExact h m t i flagged) (bound : i < h.length)
    (settled : (∃ k, i < k ∧ AccessAt h m t k) ∨ ¬AccessAt (h ++ [x]) m t h.length) :
    FlagsExact (h ++ [x]) m t i flagged := by
  refine ⟨exact_.toFirstExact.append bound.le, fun l flag j found acquired => ?_⟩
  have acquired' := (acquired_append bound.le).mp acquired
  rw [exact_.last l flag j found acquired']
  constructor
  · intro none_later k after access still
    have reach := access.lt
    rw [List.length_append, List.length_singleton] at reach
    rcases Nat.lt_succ_iff_lt_or_eq.mp reach with before | rfl
    · exact none_later k after ((accessAt_append before).mp access) ((acquired_append before.le).mp still)
    · rcases settled with ⟨k', after', access'⟩ | never
      · -- the acquisition would still hold at the access between
        have still' := (acquired_append le_rfl).mp still
        exact none_later k' after' access' (still'.mono access'.lt.le (acquired'.earlier.trans after'))
      · exact never access
  · intro none_later k after access still
    exact none_later k after access.append ((acquired_append access.lt.le).mpr still)

end Flags

end Maple.Idiom.Predictor
