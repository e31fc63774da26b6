import Maple.Idiom.OrderedExact

/-! The checks of the complex idioms: two accesses of one thread with a pair of accesses of another
one between them (`CheckCompound`) or across them (`CheckCompound2`). -/
namespace Maple.Idiom

/-- The locks that both lock sets have by the same acquisition. -/
def commonLockSet (prevLs currLs : LockSet) : FLockSet where
  lockFlagTable := prevLs.toList.foldl (fun table entry =>
    if currLs.exist entry.1 entry.2 then table.insert entry.1 (false, false) else table) ∅

namespace Predictor

abbrev TimeInfo := List (VectorClock × ThdClkInfo)

def notBefore (prev : Entry) (entry : VectorClock × ThdClkInfo) : Bool := !entry.1.happensBefore prev.vc

def notAfter (curr : Entry) (entry : VectorClock × ThdClkInfo) : Bool := !curr.vc.happensBefore entry.1

/-- `CheckCompound` behind its assertions: the loops go on to the last entry that passes. -/
def compound (prev curr : Entry) (succ pred : AccSum) : Bool :=
  match (succ.tinfo.reverse.takeWhile (notBefore prev)).getLast?, (pred.tinfo.takeWhile (notAfter curr)).getLast? with
  | some succEntry, some predEntry =>
    if predEntry.2.stop < succEntry.2.start then false
    else if curr.metaId ≠ prev.metaId then
      let fls := commonLockSet prev.ls curr.ls
      checkMutexExclution fls succ.fls && checkMutexExclution pred.fls fls
    else true
  | _, _ => false

def checkCompound (p : PredictorNew) (prev curr : Entry) (succ pred : AccSum) : Option Bool := do
  debugAssert (succ.thdId = pred.thdId)
  let own ← curr.accSum
  let sum ← p.accSums[own]?
  debugAssert (sum.thdId ≠ succ.thdId)
  return compound prev curr succ pred

/-- `CheckCompound2` behind its assertions: the loops stop at the first entry that passes. -/
def compound2 (prev curr : Entry) (succ pred : AccSum) : Bool :=
  match succ.tinfo.reverse.find? (notBefore prev), pred.tinfo.find? (notAfter curr) with
  | some succEntry, some predEntry => if succEntry.2.stop < predEntry.2.start then false else true
  | _, _ => false

def checkCompound2 (p : PredictorNew) (prev curr : Entry) (succ pred : AccSum) : Option Bool := do
  debugAssert (succ.thdId = pred.thdId)
  let own ← curr.accSum
  let sum ← p.accSums[own]?
  debugAssert (sum.thdId ≠ succ.thdId)
  debugAssert (succ.metaId ≠ pred.metaId)
  return compound2 prev curr succ pred

section Scans
variable {tinfo : TimeInfo} {accs : List (VectorClock × ℕ)} {passes : VectorClock × ThdClkInfo → Bool} {clk : ℕ}

theorem takeWhile_eq_filter {α : Type} {passes : α → Bool} {l : List α}
    (closed : l.Pairwise fun x y => passes y = true → passes x = true) : l.takeWhile passes = l.filter passes := by
  induction l with
  | nil => rfl
  | cons x l ih =>
    obtain ⟨head, tail⟩ := List.pairwise_cons.mp closed
    by_cases passed : passes x = true
    · rw [List.takeWhile_cons_of_pos passed, List.filter_cons_of_pos passed, ih tail]
    · rw [List.takeWhile_cons_of_neg passed, List.filter_cons_of_neg passed]
      exact (List.filter_eq_nil_iff.mpr fun y member passed' => passed (head y member passed')).symm

/-- What a summary knows of its accesses, in the order in which they came. -/
structure Clocked (tinfo : TimeInfo) (accs : List (VectorClock × ℕ)) : Prop where
  compressed : Compressed tinfo accs
  timed : Timed tinfo accs
  sorted : accs.Pairwise NotAfter
  times : accs.Pairwise fun acc later => acc.2 ≤ later.2

theorem Clocked.le (clocked : Clocked tinfo accs) {acc later : VectorClock × ℕ} (member : acc ∈ accs) (member' : later ∈ accs)
    (before : acc.1.happensBefore later.1 = true) (apart : acc.1 ≠ later.1) : acc.2 ≤ later.2 := by
  obtain ⟨i, bound, rfl⟩ := List.getElem_of_mem member
  obtain ⟨j, bound', rfl⟩ := List.getElem_of_mem member'
  rcases Nat.lt_trichotomy i j with less | rfl | more
  · exact List.pairwise_iff_getElem.mp clocked.times i j bound bound' less
  · exact absurd rfl apart
  · have after := List.pairwise_iff_getElem.mp clocked.sorted j i bound' bound more
    exact absurd (VectorClock.happensBefore_antisymm before after) apart

theorem Clocked.increasing (clocked : Clocked tinfo accs) : tinfo.Pairwise fun e f =>
    e.1.happensBefore f.1 = true ∧ e.2.start ≤ f.2.start ∧ e.2.stop ≤ f.2.stop := by
  refine clocked.compressed.increasing.imp_of_mem ?_
  rintro e f member member' ⟨before, apart⟩
  exact ⟨before, clocked.le (clocked.timed.start e member) (clocked.timed.start f member') before apart,
    clocked.le (clocked.timed.stop e member) (clocked.timed.stop f member') before apart⟩

/-- The first entry that passes decides whether an access passes up to a time. -/
theorem Clocked.first_iff (clocked : Clocked tinfo accs) (late : VectorClock → Bool) :
    (∃ e, tinfo.find? (fun e => late e.1) = some e ∧ e.2.start ≤ clk) ↔ ∃ acc ∈ accs, late acc.1 = true ∧ acc.2 ≤ clk := by
  constructor
  · rintro ⟨e, found, upTo⟩
    have passed := List.find?_some found
    exact ⟨_, clocked.timed.start e (List.mem_of_find?_eq_some found), passed, upTo⟩
  · rintro ⟨acc, member, passed, upTo⟩
    obtain ⟨f, listed, same, above, -⟩ := clocked.timed.covers acc member
    rw [← same] at passed
    have some_passes : (tinfo.find? fun e => late e.1).isSome = true := List.find?_isSome.mpr ⟨f, listed, passed⟩
    obtain ⟨e, found⟩ := Option.isSome_iff_exists.mp some_passes
    refine ⟨e, found, ?_⟩
    obtain ⟨-, before, after, rfl, unpassed⟩ := List.find?_eq_some_iff_append.mp found
    rcases List.mem_append.mp listed with earlier | own
    · exact absurd passed (by simpa using unpassed f earlier)
    · rcases List.mem_cons.mp own with rfl | later
      · exact above.trans upTo
      · have pair := List.pairwise_append.mp clocked.increasing
        exact ((List.pairwise_cons.mp pair.2.1).1 f later).2.1.trans (above.trans upTo)

theorem Clocked.last_iff (clocked : Clocked tinfo accs) (late : VectorClock → Bool) :
    (∃ e, tinfo.reverse.find? (fun e => late e.1) = some e ∧ clk ≤ e.2.stop) ↔
      ∃ acc ∈ accs, late acc.1 = true ∧ clk ≤ acc.2 := by
  constructor
  · rintro ⟨e, found, from_⟩
    have member := List.mem_reverse.mp (List.mem_of_find?_eq_some found)
    have passed := List.find?_some found
    exact ⟨_, clocked.timed.stop e member, passed, from_⟩
  · rintro ⟨acc, member, passed, from_⟩
    obtain ⟨f, listed, same, -, below⟩ := clocked.timed.covers acc member
    rw [← same] at passed
    have some_passes : (tinfo.reverse.find? fun e => late e.1).isSome = true :=
      List.find?_isSome.mpr ⟨f, List.mem_reverse.mpr listed, passed⟩
    obtain ⟨e, found⟩ := Option.isSome_iff_exists.mp some_passes
    refine ⟨e, found, ?_⟩
    have sorted := List.pairwise_reverse.mpr clocked.increasing
    obtain ⟨-, before, after, whole, unpassed⟩ := List.find?_eq_some_iff_append.mp found
    rw [whole] at sorted
    have listed : f ∈ before ++ e :: after := whole ▸ List.mem_reverse.mpr listed
    rcases List.mem_append.mp listed with earlier | own
    · exact absurd passed (by simpa using unpassed f earlier)
    · rcases List.mem_cons.mp own with rfl | later
      · exact from_.trans below
      · have pair := List.pairwise_append.mp sorted
        exact (from_.trans below).trans ((List.pairwise_cons.mp pair.2.1).1 f later).2.2

/-- The loop of `CheckCompound` on the successor runs back to the earliest entry. -/
theorem Clocked.scanBack (clocked : Clocked tinfo accs) (prev : Entry) :
    (tinfo.reverse.takeWhile (notBefore prev)).getLast? = tinfo.find? (notBefore prev) := by
  rw [takeWhile_eq_filter, List.filter_reverse, List.getLast?_reverse, List.head?_filter]
  refine List.pairwise_reverse.mpr (clocked.increasing.imp fun {e f} below passed => ?_)
  simp only [notBefore, Bool.not_eq_true', Bool.eq_false_iff] at passed ⊢
  exact fun before => passed (VectorClock.happensBefore_trans below.1 before)

theorem Clocked.scanOn (clocked : Clocked tinfo accs) (curr : Entry) :
    (tinfo.takeWhile (notAfter curr)).getLast? = tinfo.reverse.find? (notAfter curr) := by
  rw [takeWhile_eq_filter, List.getLast?_filter]
  refine clocked.increasing.imp fun {e f} below passed => ?_
  simp only [notAfter, Bool.not_eq_true', Bool.eq_false_iff] at passed ⊢
  exact fun after => passed (VectorClock.happensBefore_trans after below.1)

end Scans

section Locks
variable {prevLs currLs : LockSet} {l : Address}

theorem getElem?_commonLockSet (prevLs currLs : LockSet) (l : Address) : (commonLockSet prevLs currLs).lockFlagTable[l]? =
    if prevLs.toList.any (fun entry => entry.1 = l && currLs.exist entry.1 entry.2) then some (false, false) else none := by
  unfold commonLockSet
  induction prevLs.toList using List.reverseRecOn with
  | nil => simp
  | append_singleton entries entry ih =>
    simp only [List.foldl_append, List.foldl_cons, List.foldl_nil, List.any_append, List.any_cons, List.any_nil,
      Bool.or_false]
    by_cases both : currLs.exist entry.1 entry.2 = true
    · rw [if_pos both, getElem?_insert_address, ih, both, Bool.and_true]
      by_cases here : entry.1 = l
      · simp [here]
      · rw [if_neg here, decide_eq_false here, Bool.or_false]
    · rw [if_neg both, ih, Bool.eq_false_iff.mpr both, Bool.and_false, Bool.or_false]

theorem mem_commonLockSet : l ∈ (commonLockSet prevLs currLs).lockFlagTable ↔
    ∃ v, prevLs[l]? = some v ∧ currLs.exist l v = true := by
  rw [Std.ExtTreeMap.mem_iff_isSome_getElem?, getElem?_commonLockSet]
  simp only [Option.isSome_ite, List.any_eq_true, Bool.and_eq_true, decide_eq_true_eq, Prod.exists]
  constructor
  · rintro ⟨_, v, member, rfl, both⟩
    exact ⟨v, Std.ExtTreeMap.mem_toList_iff_getElem?_eq_some.mp member, both⟩
  · rintro ⟨v, held, both⟩
    exact ⟨l, v, Std.ExtTreeMap.mem_toList_iff_getElem?_eq_some.mpr held, rfl, both⟩

theorem flags_commonLockSet {flag : Bool × Bool} (found : (commonLockSet prevLs currLs).lockFlagTable[l]? = some flag) :
    flag = (false, false) := by
  rw [getElem?_commonLockSet] at found
  split at found
  · exact (Option.some.inj found).symm
  · exact nomatch found

theorem checkMutexExclution_iff (srcFls dstFls : FLockSet) : checkMutexExclution srcFls dstFls = true ↔
    ∀ (l : Address) flag other, srcFls.lockFlagTable[l]? = some flag → dstFls.lockFlagTable[l]? = some other →
      flag.2 = true ∧ other.1 = true := by
  rw [checkMutexExclution, List.all_eq_true]
  constructor
  · intro all l flag other found found'
    have passed := all (l, flag) (Std.ExtTreeMap.mem_toList_iff_getElem?_eq_some.mpr found)
    simp only [found'] at passed
    exact Bool.and_eq_true_iff.mp passed
  · rintro all ⟨l, flag⟩ member
    have found := Std.ExtTreeMap.mem_toList_iff_getElem?_eq_some.mp member
    dsimp only
    cases found' : dstFls.lockFlagTable[l]? with
    | none => rfl
    | some other => exact Bool.and_eq_true_iff.mpr (all l flag other found found')

/-- Locks without flags exclude all accesses under them. -/
theorem excludes_iff (fls : FLockSet) :
    (checkMutexExclution (commonLockSet prevLs currLs) fls = true ↔
      ∀ l ∈ (commonLockSet prevLs currLs).lockFlagTable, l ∉ fls.lockFlagTable) ∧
    (checkMutexExclution fls (commonLockSet prevLs currLs) = true ↔
      ∀ l ∈ (commonLockSet prevLs currLs).lockFlagTable, l ∉ fls.lockFlagTable) := by
  have stored : ∀ (fls : FLockSet) (l : Address), l ∈ fls.lockFlagTable ↔ ∃ flag, fls.lockFlagTable[l]? = some flag := by
    intro fls l
    rw [Std.ExtTreeMap.mem_iff_isSome_getElem?, Option.isSome_iff_exists]
  rw [checkMutexExclution_iff, checkMutexExclution_iff]
  constructor
  · constructor
    · intro all l common held
      obtain ⟨flag, found⟩ := (stored _ l).mp common
      obtain ⟨other, found'⟩ := (stored _ l).mp held
      have passed := (all l flag other found found').1
      rw [flags_commonLockSet found] at passed
      exact nomatch passed
    · intro apart l flag other found found'
      exact absurd ((stored _ l).mpr ⟨other, found'⟩) (apart l ((stored _ l).mpr ⟨flag, found⟩))
  · constructor
    · intro all l common held
      obtain ⟨flag, found⟩ := (stored _ l).mp common
      obtain ⟨other, found'⟩ := (stored _ l).mp held
      have passed := (all l other flag found' found).2
      rw [flags_commonLockSet found] at passed
      exact nomatch passed
    · intro apart l other flag found' found
      exact absurd ((stored _ l).mpr ⟨other, found'⟩) (apart l ((stored _ l).mpr ⟨flag, found⟩))

end Locks

section Checks
variable {accs accs' : List (VectorClock × ℕ)} {prev curr : Entry} {succ pred : AccSum}

/-- The entries that are compared decide for all pairs of accesses. -/
theorem Clocked.pair_iff {tinfo tinfo' : TimeInfo} (clocked : Clocked tinfo accs) (clocked' : Clocked tinfo' accs')
    (late late' : VectorClock → Bool) :
    (∃ e f, tinfo.find? (fun e => late e.1) = some e ∧ tinfo'.reverse.find? (fun e => late' e.1) = some f ∧
      e.2.start ≤ f.2.stop) ↔
    ∃ a ∈ accs, ∃ b ∈ accs', late a.1 = true ∧ late' b.1 = true ∧ a.2 ≤ b.2 := by
  constructor
  · rintro ⟨e, f, found, found', upTo⟩
    obtain ⟨a, member, passed, below⟩ := (clocked.first_iff late).mp ⟨e, found, upTo⟩
    obtain ⟨b, member', passed', above⟩ := (clocked'.last_iff late').mp ⟨f, found', below⟩
    exact ⟨a, member, b, member', passed, passed', above⟩
  · rintro ⟨a, member, b, member', passed, passed', upTo⟩
    obtain ⟨f, found', above⟩ := (clocked'.last_iff late').mpr ⟨b, member', passed', upTo⟩
    obtain ⟨e, found, below⟩ := (clocked.first_iff late).mpr ⟨a, member, passed, above⟩
    exact ⟨e, f, found, found', below⟩

theorem compound_iff (clocked : Clocked succ.tinfo accs) (clocked' : Clocked pred.tinfo accs') :
    compound prev curr succ pred = true ↔
      (∃ a ∈ accs, ∃ b ∈ accs', (!a.1.happensBefore prev.vc) = true ∧ (!curr.vc.happensBefore b.1) = true ∧ a.2 ≤ b.2) ∧
      (curr.metaId ≠ prev.metaId → ∀ l ∈ (commonLockSet prev.ls curr.ls).lockFlagTable,
        l ∉ succ.fls.lockFlagTable ∧ l ∉ pred.fls.lockFlagTable) := by
  have pair := clocked.pair_iff clocked' (fun v => !v.happensBefore prev.vc) (fun v => !curr.vc.happensBefore v)
  rw [← pair, compound, clocked.scanBack, clocked'.scanOn]
  change _ ↔ (∃ e f, succ.tinfo.find? (notBefore prev) = some e ∧ pred.tinfo.reverse.find? (notAfter curr) = some f ∧ _) ∧ _
  cases first : succ.tinfo.find? (notBefore prev) with
  | none => simp
  | some e =>
    cases last : pred.tinfo.reverse.find? (notAfter curr) with
    | none => simp
    | some f =>
      simp only [Option.some.injEq, exists_and_left, exists_eq_left']
      by_cases late : f.2.stop < e.2.start
      · rw [if_pos late]
        exact iff_of_false nofun fun holds => Nat.not_lt.mpr holds.1 late
      · rw [if_neg late, and_iff_right (Nat.not_lt.mp late)]
        by_cases single : curr.metaId = prev.metaId
        · simp [single]
        · rw [if_pos single, Bool.and_eq_true, (excludes_iff succ.fls).1, (excludes_iff pred.fls).2]
          simp only [single, ne_eq, not_false_eq_true, true_imp_iff, forall_and]

theorem compound2_iff (clocked : Clocked succ.tinfo accs) (clocked' : Clocked pred.tinfo accs') :
    compound2 prev curr succ pred = true ↔
      ∃ a ∈ accs, ∃ b ∈ accs', (!a.1.happensBefore prev.vc) = true ∧ (!curr.vc.happensBefore b.1) = true ∧ b.2 ≤ a.2 := by
  have pair := clocked'.pair_iff clocked (fun v => !curr.vc.happensBefore v) (fun v => !v.happensBefore prev.vc)
  have swapped : (∃ a ∈ accs, ∃ b ∈ accs', (!a.1.happensBefore prev.vc) = true ∧
      (!curr.vc.happensBefore b.1) = true ∧ b.2 ≤ a.2) ↔
      ∃ b ∈ accs', ∃ a ∈ accs, (!curr.vc.happensBefore b.1) = true ∧ (!a.1.happensBefore prev.vc) = true ∧ b.2 ≤ a.2 := by
    constructor
    · rintro ⟨a, member, b, member', passed, passed', upTo⟩
      exact ⟨b, member', a, member, passed', passed, upTo⟩
    · rintro ⟨b, member', a, member, passed', passed, upTo⟩
      exact ⟨a, member, b, member', passed, passed', upTo⟩
  rw [swapped, ← pair, compound2]
  change _ ↔ ∃ f e, pred.tinfo.find? (notAfter curr) = some f ∧ succ.tinfo.reverse.find? (notBefore prev) = some e ∧ _
  cases last : succ.tinfo.reverse.find? (notBefore prev) with
  | none => simp
  | some e =>
    cases first : pred.tinfo.find? (notAfter curr) with
    | none => simp
    | some f =>
      simp only [Option.some.injEq, exists_and_left, exists_eq_left']
      by_cases late : e.2.stop < f.2.start
      · rw [if_pos late]
        exact iff_of_false nofun fun holds => Nat.not_lt.mpr holds late
      · rw [if_neg late]
        exact iff_of_true rfl (Nat.not_lt.mp late)

end Checks

namespace State
variable {c : Config} {s final : State} {live : MetaId → Prop} {t : ThreadId} {i j n k : ℕ} {prev curr : Entry}
  {succ pred : AccSum}

/-- The recent entry of the access at a place. -/
def EntryAt (s : State) (t : ThreadId) (e : Entry) (i : ℕ) : Prop :=
  ∃ k : ℕ, (s.recentInfo t).entryVec[k]? = some e ∧ (placesOf s.history t)[k]? = some i

/-- The thread holds the lock at an access of the summary. -/
def HeldBy (s : State) (n : ℕ) (l : Address) : Prop :=
  ∃ call ∈ s.calls, call.accSum = n ∧ ∃ i j, call.place = some i ∧ Acquired s.history call.dynAcc.thdId l j i

/-- The lock is held at both places by one acquisition. -/
def HeldAcross (s : State) (t : ThreadId) (l : Address) (i j : ℕ) : Prop :=
  ∃ k, Acquired s.history t l k i ∧ Acquired s.history t l k j

theorem Core.clocked (core : Core c live s) (times : TimeOk s.history) (found : s.accSums[n]? = some succ) :
    Clocked succ.tinfo (clocksOf s.calls n) := by
  have sorted : ∀ n, (clocksOf s.calls n).Pairwise NotAfter := fun n =>
    core.sums.clocks_related (R := fun a b => a.vc.happensBefore b.vc = true) core.vc_related fun _ _ => id
  refine ⟨core.sums.compressed sorted found, core.timed times found, sorted n, ?_⟩
  exact core.sums.clocks_related (R := fun a b => a.thdClk ≤ b.thdClk)
    (core.calls.related (R := fun a b => a.thdClk ≤ b.thdClk) times.ordered) fun _ _ => id

/-- The locks of a summary are those held at its accesses. -/
theorem Core.held_iff (core : Core c live s) (found : s.accSums[n]? = some succ) (l : Address) :
    l ∈ succ.fls.lockFlagTable ↔ HeldBy s n l := by
  have about : ∀ call ∈ s.calls, call.accSum = n → ∀ i, call.place = some i →
      (l ∈ succ.fls.lockFlagTable ↔ ∃ j, Acquired s.history call.dynAcc.thdId l j i) := by
    rintro call made rfl i place
    obtain ⟨sum, found', about⟩ := core.sums.about call made
    cases found.symm.trans found'
    obtain ⟨i', same, -, flags⟩ := core.calls.placed call made
    cases place.symm.trans same
    rw [← flags.keys l, Std.ExtTreeMap.mem_iff_isSome_getElem?, Std.ExtTreeMap.mem_iff_isSome_getElem?, about.fls l]
  constructor
  · intro member
    -- a summary has an access
    have occupied : clocksOf s.calls n ≠ [] := by
      intro empty
      have folded := core.sums.tinfo n succ found
      rw [empty] at folded
      exact core.sums.nonempty n succ found folded
    obtain ⟨acc, here⟩ := List.exists_mem_of_ne_nil _ occupied
    obtain ⟨call, made, same, -⟩ := mem_clocksOf.mp here
    obtain ⟨i, place, -⟩ := core.calls.placed call made
    obtain ⟨j, acquired⟩ := (about call made same i place).mp member
    exact ⟨call, made, same, i, j, place, acquired⟩
  · rintro ⟨call, made, same, i, j, place, acquired⟩
    exact (about call made same i place).mpr ⟨j, acquired⟩

theorem Core.common_iff (core : Core c live s) (complex : c.complexIdioms = true) (here : EntryAt s t prev i)
    (here' : EntryAt s t curr j) (l : Address) :
    l ∈ (commonLockSet prev.ls curr.ls).lockFlagTable ↔ HeldAcross s t l i j := by
  obtain ⟨k, listed, place⟩ := here
  obtain ⟨k', listed', place'⟩ := here'
  have entry := (core.recent complex t).entries k prev i listed place
  have entry' := (core.recent complex t).entries k' curr j listed' place'
  rw [mem_commonLockSet]
  constructor
  · rintro ⟨v, held, both⟩
    obtain ⟨a, acquired, rfl⟩ := (entry.ls l v).mp held
    exact ⟨a, acquired, (entry'.ls.exist_iff acquired.locked).mp both⟩
  · rintro ⟨a, acquired, acquired'⟩
    exact ⟨versionAt s.history a, (entry.ls l _).mpr ⟨a, acquired, rfl⟩, (entry'.ls.exist_iff acquired.locked).mpr acquired'⟩

/-- The summary of the entry, which the assertions ask for. -/
theorem Core.entry_sum (core : Core c live s) (freed : ∀ m, m ∉ s.accHistos) (complex : c.complexIdioms = true)
    (here : EntryAt s t curr j) : ∃ own sum, curr.accSum = some own ∧ s.accSums[own]? = some sum ∧ sum.thdId = t := by
  obtain ⟨k, listed, place⟩ := here
  obtain ⟨entry, own, given⟩ := (core.matured freed complex t).entries k curr j listed place
  obtain ⟨call, made, at_place, rfl⟩ := (entry.accSum own).mp given
  obtain ⟨sum, found, about⟩ := core.sums.about call made
  obtain ⟨a, happened, -, own, -⟩ := entry.access
  obtain ⟨j', same, happened', -⟩ := core.calls.placed call made
  cases at_place.symm.trans same
  have access := Happening.access.inj (Option.some.inj (happened.symm.trans happened'))
  exact ⟨_, sum, given, found, about.thdId.trans ((congrArg Access.thdId access).symm.trans own)⟩

/-- A witness of `CheckCompound`. -/
structure Witness (s : State) (t : ThreadId) (prev curr : Entry) (i j n k : ℕ) (a b : Access) : Prop where
  succ : SummarisedBy s.calls a n
  pred : SummarisedBy s.calls b k
  notBefore : a.vc.happensBefore prev.vc = false
  notAfter : curr.vc.happensBefore b.vc = false
  upTo : a.thdClk ≤ b.thdClk
  locks : curr.metaId ≠ prev.metaId → ∀ l, HeldAcross s t l i j → ¬HeldBy s n l ∧ ¬HeldBy s k l

structure Witness2 (s : State) (prev curr : Entry) (n k : ℕ) (a b : Access) : Prop where
  succ : SummarisedBy s.calls a n
  pred : SummarisedBy s.calls b k
  notBefore : a.vc.happensBefore prev.vc = false
  notAfter : curr.vc.happensBefore b.vc = false
  upTo : b.thdClk ≤ a.thdClk

theorem Core.compound_iff (core : Core c live s) (times : TimeOk s.history) (complex : c.complexIdioms = true)
    (here : EntryAt s t prev i) (here' : EntryAt s t curr j) (found : s.accSums[n]? = some succ)
    (found' : s.accSums[k]? = some pred) :
    compound prev curr succ pred = true ↔ ∃ a b, Witness s t prev curr i j n k a b := by
  rw [Predictor.compound_iff (core.clocked times found) (core.clocked times found')]
  simp only [core.common_iff complex here here', core.held_iff found, core.held_iff found', Bool.not_eq_true']
  constructor
  · rintro ⟨⟨acc, member, acc', member', notBefore, notAfter, upTo⟩, locks⟩
    obtain ⟨call, made, same, rfl⟩ := mem_clocksOf.mp member
    obtain ⟨call', made', same', rfl⟩ := mem_clocksOf.mp member'
    exact ⟨_, _, ⟨call, made, rfl, same⟩, ⟨call', made', rfl, same'⟩, notBefore, notAfter, upTo, locks⟩
  · rintro ⟨_, _, ⟨call, made, rfl, same⟩, ⟨call', made', rfl, same'⟩, notBefore, notAfter, upTo, locks⟩
    exact ⟨⟨_, mem_clocksOf.mpr ⟨call, made, same, rfl⟩, _, mem_clocksOf.mpr ⟨call', made', same', rfl⟩, notBefore,
      notAfter, upTo⟩, locks⟩

theorem Core.compound2_iff (core : Core c live s) (times : TimeOk s.history) (found : s.accSums[n]? = some succ)
    (found' : s.accSums[k]? = some pred) :
    compound2 prev curr succ pred = true ↔ ∃ a b, Witness2 s prev curr n k a b := by
  rw [Predictor.compound2_iff (core.clocked times found) (core.clocked times found')]
  simp only [Bool.not_eq_true']
  constructor
  · rintro ⟨acc, member, acc', member', notBefore, notAfter, upTo⟩
    obtain ⟨call, made, same, rfl⟩ := mem_clocksOf.mp member
    obtain ⟨call', made', same', rfl⟩ := mem_clocksOf.mp member'
    exact ⟨_, _, ⟨call, made, rfl, same⟩, ⟨call', made', rfl, same'⟩, notBefore, notAfter, upTo⟩
  · rintro ⟨_, _, ⟨call, made, rfl, same⟩, ⟨call', made', rfl, same'⟩, notBefore, notAfter, upTo⟩
    exact ⟨_, mem_clocksOf.mpr ⟨call, made, same, rfl⟩, _, mem_clocksOf.mpr ⟨call', made', same', rfl⟩, notBefore,
      notAfter, upTo⟩

/-- The compound checks find a witness exactly when there is one. -/
theorem compound_exact (reached : Runs.Reach (· = {}) Timely (State.step c) s) (complex : c.complexIdioms = true)
    (ended : s.programExit c = some final) (here : EntryAt final t prev i) (here' : EntryAt final t curr j)
    (found : final.accSums[n]? = some succ) (found' : final.accSums[k]? = some pred) (same : succ.thdId = pred.thdId)
    (other : succ.thdId ≠ t) : ∃ holds holds2 : Bool,
      checkCompound final.toPredictorNew prev curr succ pred = some holds ∧
      (holds = true ↔ ∃ a b, Witness final t prev curr i j n k a b) ∧
      (succ.metaId ≠ pred.metaId → checkCompound2 final.toPredictorNew prev curr succ pred = some holds2) ∧
      (holds2 = true ↔ ∃ a b, Witness2 final prev curr n k a b) := by
  obtain ⟨inv, times⟩ := timeOk_of_reach reached
  obtain ⟨final', ran, core, history, freed⟩ := inv.programExit
  cases ended.symm.trans ran
  rw [← history] at times
  obtain ⟨own, sum, given, stored, thread⟩ := core.entry_sum freed complex here'
  have apart : sum.thdId ≠ succ.thdId := fun equal => other (equal.symm.trans thread)
  refine ⟨compound prev curr succ pred, compound2 prev curr succ pred, ?_, ?_, fun metas => ?_, ?_⟩
  · simp only [checkCompound, debugAssert_pos same, given, stored, debugAssert_pos apart, Option.bind_eq_bind,
      Option.bind_some]
    rfl
  · exact core.compound_iff times complex here here' found found'
  · simp only [checkCompound2, debugAssert_pos same, given, stored, debugAssert_pos apart, debugAssert_pos metas,
      Option.bind_eq_bind, Option.bind_some]
    rfl
  · exact core.compound2_iff times found found'

/-- Two units that one thread writes and another one reads. -/
theorem compound_exact_concurrent : ∃ (final : State) (prev curr : Entry) (succ pred : AccSum) (holds holds2 : Bool),
    checkCompound final.toPredictorNew prev curr succ pred = some holds ∧
    (holds = true ↔ ∃ a b, Witness final 0 prev curr 0 1 1 3 a b) ∧
    (succ.metaId ≠ pred.metaId → checkCompound2 final.toPredictorNew prev curr succ pred = some holds2) ∧
    (holds2 = true ↔ ∃ a b, Witness2 final prev curr 1 3 a b) := by
  have t : (Runs.follow Timely (State.step plain) {} [.sync (.threadStart 0 invalidThdId), .sync (.threadStart 1 0),
      .memWrite 0 1 4 8, .memWrite 0 2 4 16, .memRead 1 1 5 8, .memRead 1 2 5 16]).any (fun s =>
        (s.programExit plain).any fun final => (final.recentInfo 0).entryVec.length = 2 ∧
          placesOf final.history 0 = [0, 1] ∧ final.accSums.map (·.thdId) = [0, 1, 0, 1]) = true := by
    decide +kernel
  obtain ⟨s, reached, passed⟩ : ∃ s, Runs.Reach (· = ({} : State)) Timely (State.step plain) s ∧ _ :=
    Runs.Reach.of_follow (by rfl) _ t
  obtain ⟨final, ended, passed⟩ := (Option.any_eq_true _ _).mp passed
  obtain ⟨length, places, sums⟩ := of_decide_eq_true passed
  have count : final.accSums.length = 4 := by rw [← List.length_map, sums]; rfl
  have thread : ∀ (n : ℕ) sum, final.accSums[n]? = some sum → [0, 1, 0, 1][n]? = some sum.thdId := by
    intro n sum found
    rw [← sums, List.getElem?_map, found]
    rfl
  have found := List.getElem?_eq_getElem (l := final.accSums) (i := 1) (by omega)
  have found' := List.getElem?_eq_getElem (l := final.accSums) (i := 3) (by omega)
  have one := Option.some.inj (thread 1 _ found)
  have one' := Option.some.inj (thread 3 _ found')
  refine ⟨final, _, _, _, _, compound_exact reached rfl ended ⟨0, List.getElem?_eq_getElem (by omega), by rw [places]; rfl⟩
    ⟨1, List.getElem?_eq_getElem (by omega), by rw [places]; rfl⟩ found found' (one.symm.trans one') ?_⟩
  rw [← one]
  decide

end State
end Predictor
end Maple.Idiom
