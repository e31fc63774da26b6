import Maple.Core.BasicTypes

/-! `core/vector_clock.cc`. A missing entry reads as zero in `GetClock`, but the
comparisons walk the stored entries; the specifications below give both the
entrywise meaning and, for positive entries, the componentwise one. Entries are
naturals here, on which `Increment` does not wrap; `WordClock` is the clock with
the 64 bits of `timestamp_t`. -/
namespace Maple

@[ext] structure VectorClock where
  map : OrdMap ThreadId ℕ := ∅
  deriving DecidableEq

namespace VectorClock

def getClock (vc : VectorClock) (thdId : ThreadId) : ℕ := vc.map[thdId]?.getD 0

def setClock (vc : VectorClock) (thdId : ThreadId) (clk : ℕ) : VectorClock :=
  ⟨vc.map.insert thdId clk⟩

def increment (vc : VectorClock) (thdId : ThreadId) : VectorClock :=
  match vc.map[thdId]? with
  | none => ⟨vc.map.insert thdId 1⟩
  | some clk => ⟨vc.map.insert thdId (clk + 1)⟩

/-- One iteration of the loop of `Join`. -/
def joinEntry (map : OrdMap ThreadId ℕ) (entry : ThreadId × ℕ) :
    OrdMap ThreadId ℕ :=
  match map[entry.1]? with
  | none => map.insert entry.1 entry.2
  | some clk => map.insert entry.1 (max entry.2 clk)

def join (vc other : VectorClock) : VectorClock := ⟨other.map.toList.foldl joinEntry vc.map⟩

/-- Inner loop of `HappensBefore`: advance the second iterator to `thdId`. The
result is the iterator behind it, or `none` when the entry is not covered. -/
def advance (thdId : ThreadId) (clk : ℕ) :
    List (ThreadId × ℕ) → Option (List (ThreadId × ℕ))
  | [] => none
  | (vcThdId, vcThdClk) :: rest =>
    if vcThdId = thdId then
      if clk ≤ vcThdClk then some rest else none
    else if thdId < vcThdId then none
    else advance thdId clk rest

/-- Outer loop of `HappensBefore`: every entry of the first list is covered. -/
def covered : List (ThreadId × ℕ) → List (ThreadId × ℕ) → Bool
  | [], _ => true
  | (thdId, clk) :: rest, its =>
    match advance thdId clk its with
    | none => false
    | some its' => covered rest its'

def happensBefore (vc other : VectorClock) : Bool := covered vc.map.toList other.map.toList

/-- Inner loop of `HappensAfter`: advance the own iterator to the thread of the other clock. -/
def advanceCurr (vcThdId : ThreadId) (vcThdClk : ℕ) :
    List (ThreadId × ℕ) → Option (List (ThreadId × ℕ))
  | [] => none
  | (currThdId, currThdClk) :: rest =>
    if currThdId = vcThdId then
      if vcThdClk ≤ currThdClk then some rest else none
    else if vcThdId < currThdId then none
    else advanceCurr vcThdId vcThdClk rest

/-- Outer loop of `HappensAfter`: the own entries cover every entry of the other clock. -/
def covers (currs : List (ThreadId × ℕ)) : List (ThreadId × ℕ) → Bool
  | [] => true
  | (vcThdId, vcThdClk) :: rest =>
    match advanceCurr vcThdId vcThdClk currs with
    | none => false
    | some currs' => covers currs' rest

def happensAfter (vc other : VectorClock) : Bool := covers vc.map.toList other.map.toList

/-- `Equal`: both maps are walked side by side. -/
def equal (vc other : VectorClock) : Bool :=
  vc.map.size = other.map.size &&
    (vc.map.toList.zip other.map.toList).all fun (its, others) => its.1 = others.1 && its.2 = others.2

@[simp] theorem getClock_setClock (vc : VectorClock) (t u : ThreadId) (clk : ℕ) :
    (vc.setClock t clk).getClock u = if t = u then clk else vc.getClock u := by
  simp only [getClock, setClock, Std.ExtTreeMap.getElem?_insert, Nat.compare_eq_eq]
  split <;> rfl

@[simp] theorem getClock_increment (vc : VectorClock) (t u : ThreadId) :
    (vc.increment t).getClock u = if t = u then vc.getClock t + 1 else vc.getClock u := by
  unfold increment getClock
  split
  · next missing =>
      simp only [Std.ExtTreeMap.getElem?_insert, Nat.compare_eq_eq, missing]
      split <;> rfl
  · next clk found =>
      simp only [Std.ExtTreeMap.getElem?_insert, Nat.compare_eq_eq, found]
      split <;> rfl

@[simp] theorem getClock_empty (t : ThreadId) : ({} : VectorClock).getClock t = 0 := by
  simp [getClock]

theorem getD_joinEntry (map : OrdMap ThreadId ℕ) (entry : ThreadId × ℕ)
    (t : ThreadId) : (joinEntry map entry)[t]?.getD 0 =
      if entry.1 = t then max entry.2 (map[t]?.getD 0) else map[t]?.getD 0 := by
  unfold joinEntry
  split
  · next missing =>
      simp only [Std.ExtTreeMap.getElem?_insert, Nat.compare_eq_eq]
      split
      · next same => simp [← same, missing]
      · rfl
  · next clk found =>
      simp only [Std.ExtTreeMap.getElem?_insert, Nat.compare_eq_eq]
      split
      · next same => simp [← same, found]
      · rfl

/-- Folding in entries with distinct keys takes the maximum with each of them. -/
theorem getD_foldl_joinEntry (entries : List (ThreadId × ℕ)) (t : ThreadId)
    (distinct : entries.Pairwise (fun a b => a.1 ≠ b.1)) (map : OrdMap ThreadId ℕ) :
    (entries.foldl joinEntry map)[t]?.getD 0 =
      max (map[t]?.getD 0) ((entries.lookup t).getD 0) := by
  induction entries generalizing map with
  | nil => simp
  | cons entry rest ih =>
    obtain ⟨k, clk⟩ := entry
    obtain ⟨apart, distinct⟩ := List.pairwise_cons.mp distinct
    rw [List.foldl_cons, ih distinct, getD_joinEntry]
    by_cases same : k = t
    · have absent : rest.lookup t = none := by
        rw [List.lookup_eq_none_iff]
        intro other member
        have := apart other member
        simpa [← same] using this
      simp [same, absent, Nat.max_comm]
    · have other : (t == k) = false := by simpa using fun h : t = k => same h.symm
      simp [List.lookup_cons, other, same]

theorem mem_toList {map : OrdMap ThreadId ℕ} {t : ThreadId} {clk : ℕ} :
    (t, clk) ∈ map.toList ↔ map[t]? = some clk :=
  Std.ExtTreeMap.mem_toList_iff_getElem?_eq_some

theorem toList_distinct (map : OrdMap ThreadId ℕ) :
    map.toList.Pairwise (fun a b => a.1 ≠ b.1) :=
  map.distinct_keys_toList.imp (fun h same => h (by simp [same]))

theorem lookup_toList (map : OrdMap ThreadId ℕ) (t : ThreadId) :
    map.toList.lookup t = map[t]? := by
  cases found : map[t]? with
  | none =>
    rw [List.lookup_eq_none_iff]
    rintro ⟨k, clk⟩ member
    have present := mem_toList.mp member
    by_contra same
    simp_all
  | some clk =>
    have member := mem_toList.mpr found
    have distinct := toList_distinct map
    generalize map.toList = entries at member distinct
    induction entries with
    | nil => simp at member
    | cons entry rest ih =>
      obtain ⟨k, c⟩ := entry
      obtain ⟨apart, distinct⟩ := List.pairwise_cons.mp distinct
      rcases List.mem_cons.mp member with same | later
      · cases same; simp
      · have other : (t == k) = false := by
          have := apart _ later
          simpa using fun same : t = k => this same.symm
        simp only [List.lookup_cons, other, ih later distinct]

@[simp] theorem getClock_join (vc other : VectorClock) (t : ThreadId) :
    (vc.join other).getClock t = max (vc.getClock t) (other.getClock t) := by
  simp only [join, getClock, getD_foldl_joinEntry _ _ (toList_distinct _), lookup_toList]

/-- Sorted entries: what `advance` finds and what it leaves for larger keys. -/
theorem advance_spec (thdId : ThreadId) (clk : ℕ) (its : List (ThreadId × ℕ))
    (sorted : its.Pairwise (fun a b => a.1 < b.1)) :
    (∀ rest, advance thdId clk its = some rest →
      (∃ c, (thdId, c) ∈ its ∧ clk ≤ c) ∧ rest.Pairwise (fun a b => a.1 < b.1) ∧
      ∀ e, thdId < e.1 → (e ∈ rest ↔ e ∈ its)) ∧
    (advance thdId clk its = none → ∀ c, (thdId, c) ∈ its → c < clk) := by
  induction its with
  | nil => simp [advance]
  | cons entry its ih =>
    obtain ⟨k, c⟩ := entry
    obtain ⟨least, sorted⟩ := List.pairwise_cons.mp sorted
    have later : ∀ d, (thdId, d) ∈ its → k < thdId := fun d h => least _ h
    simp only [advance]
    by_cases same : k = thdId
    · subst same
      simp only [if_pos]
      have alone : ∀ d, (k, d) ∉ its := fun d h => absurd (later d h) (Nat.lt_irrefl _)
      split
      · next bound =>
          constructor
          · intro rest found
            cases Option.some.inj found
            refine ⟨⟨c, by simp, bound⟩, sorted, ?_⟩
            intro e above
            have : e ≠ (k, c) := by rintro rfl; exact Nat.lt_irrefl _ above
            simp [this]
          · simp
      · next short =>
          constructor
          · simp
          · intro _ d member
            rcases List.mem_cons.mp member with eq | member
            · cases eq; omega
            · exact absurd member (alone d)
    · simp only [if_neg same]
      by_cases beyond : thdId < k
      · simp only [if_pos beyond]
        constructor
        · simp
        · intro _ d member
          rcases List.mem_cons.mp member with eq | member
          · cases eq; exact absurd rfl same
          · exact absurd beyond (Nat.lt_asymm (later d member))
      · simp only [if_neg beyond]
        obtain ⟨found, lacking⟩ := ih sorted
        constructor
        · intro rest h
          obtain ⟨⟨d, member, bound⟩, sortedRest, kept⟩ := found rest h
          refine ⟨⟨d, List.mem_cons_of_mem _ member, bound⟩, sortedRest, ?_⟩
          intro e above
          have : e ≠ (k, c) := by rintro rfl; exact beyond above
          simp [kept e above, this]
        · intro h d member
          rcases List.mem_cons.mp member with eq | member
          · cases eq; exact absurd rfl same
          · exact lacking h d member

theorem covered_iff (its others : List (ThreadId × ℕ))
    (sorted : its.Pairwise (fun a b => a.1 < b.1))
    (sortedOthers : others.Pairwise (fun a b => a.1 < b.1)) :
    covered its others = true ↔ ∀ e ∈ its, ∃ c, (e.1, c) ∈ others ∧ e.2 ≤ c := by
  induction its generalizing others with
  | nil => simp [covered]
  | cons entry its ih =>
    obtain ⟨k, clk⟩ := entry
    obtain ⟨least, sorted⟩ := List.pairwise_cons.mp sorted
    obtain ⟨found, lacking⟩ := advance_spec k clk others sortedOthers
    cases advanced : advance k clk others with
    | none =>
      simp only [covered, advanced, Bool.false_eq_true, false_iff]
      intro all
      obtain ⟨c, member, bound⟩ := all (k, clk) (by simp)
      exact absurd (lacking advanced c member) (Nat.not_lt.mpr bound)
    | some rest =>
      obtain ⟨head, sortedRest, kept⟩ := found rest advanced
      simp only [covered, advanced, ih rest sorted sortedRest, List.forall_mem_cons]
      constructor
      · intro all
        refine ⟨head, fun e member => ?_⟩
        obtain ⟨c, inRest, bound⟩ := all e member
        exact ⟨c, (kept (e.1, c) (least e member)).mp inRest, bound⟩
      · rintro ⟨_, all⟩ e member
        obtain ⟨c, inOthers, bound⟩ := all e member
        exact ⟨c, (kept (e.1, c) (least e member)).mpr inOthers, bound⟩

theorem toList_sorted (map : OrdMap ThreadId ℕ) :
    map.toList.Pairwise (fun a b => a.1 < b.1) :=
  map.ordered_keys_toList.imp (fun h => Nat.compare_eq_lt.mp h)

/-- `HappensBefore` over stored entries: an absent entry never covers. -/
theorem happensBefore_iff_entries (vc other : VectorClock) :
    vc.happensBefore other = true ↔
      ∀ (t : ThreadId) (clk : ℕ), vc.map[t]? = some clk → ∃ c, other.map[t]? = some c ∧ clk ≤ c := by
  rw [happensBefore, covered_iff _ _ (toList_sorted _) (toList_sorted _)]
  constructor
  · intro all t clk found
    obtain ⟨c, member, bound⟩ :=
      all (t, clk) (mem_toList.mpr found)
    exact ⟨c, mem_toList.mp member, bound⟩
  · intro all e member
    obtain ⟨c, found, bound⟩ :=
      all e.1 e.2 (mem_toList.mp member)
    exact ⟨c, mem_toList.mpr found, bound⟩

theorem advanceCurr_eq (thdId : ThreadId) (clk : ℕ) (its : List (ThreadId × ℕ)) :
    advanceCurr thdId clk its = advance thdId clk its := by
  induction its with
  | nil => rfl
  | cons entry rest ih => rw [advanceCurr, advance, ih]

theorem covers_eq (currs its : List (ThreadId × ℕ)) : covers currs its = covered its currs := by
  induction its generalizing currs with
  | nil => rfl
  | cons entry rest ih =>
    rw [covers, covered, advanceCurr_eq]
    split
    · rfl
    · exact ih _

/-- `HappensAfter` walks the same two maps from the other side. -/
theorem happensAfter_eq (vc other : VectorClock) : vc.happensAfter other = other.happensBefore vc :=
  covers_eq _ _

theorem happensBefore_refl (vc : VectorClock) : vc.happensBefore vc = true :=
  (happensBefore_iff_entries _ _).mpr fun _ clk found => ⟨clk, found, Nat.le_refl _⟩

theorem happensBefore_trans {a b c : VectorClock} (first : a.happensBefore b = true)
    (second : b.happensBefore c = true) : a.happensBefore c = true := by
  rw [happensBefore_iff_entries] at first second ⊢
  intro t clk found
  obtain ⟨clk', found, below⟩ := first t clk found
  obtain ⟨clk'', found, below'⟩ := second t clk' found
  exact ⟨clk'', found, Nat.le_trans below below'⟩

theorem happensBefore_antisymm {a b : VectorClock} (first : a.happensBefore b = true)
    (second : b.happensBefore a = true) : a = b := by
  rw [happensBefore_iff_entries] at first second
  apply VectorClock.ext
  apply Std.ExtTreeMap.ext_getElem?
  intro t
  cases found : a.map[t]? with
  | none =>
    cases found' : b.map[t]? with
    | none => rfl
    | some clk =>
      obtain ⟨c, stored, -⟩ := second t clk found'
      exact nomatch found.symm.trans stored
  | some clk =>
    obtain ⟨c, stored, below⟩ := first t clk found
    obtain ⟨c', stored', above⟩ := second t c stored
    cases found.symm.trans stored'
    rw [stored, Nat.le_antisymm below above]

theorem happensBefore_increment (vc : VectorClock) (t : ThreadId) : vc.happensBefore (vc.increment t) = true := by
  apply (happensBefore_iff_entries _ _).mpr
  intro u clk found
  unfold increment
  split
  · next missing =>
      have other : t ≠ u := by
        rintro rfl
        exact nomatch missing.symm.trans found
      exact ⟨clk, by simp [other, found], Nat.le_refl _⟩
  · next own stored =>
      by_cases same : t = u
      · subst same
        cases stored.symm.trans found
        exact ⟨clk + 1, by simp, Nat.le_succ clk⟩
      · exact ⟨clk, by simp [same, found], Nat.le_refl _⟩

theorem happensBefore_join (vc other : VectorClock) : vc.happensBefore (vc.join other) = true := by
  have entry : ∀ (map : OrdMap ThreadId ℕ) e, (⟨map⟩ : VectorClock).happensBefore ⟨joinEntry map e⟩ = true := by
    intro map e
    apply (happensBefore_iff_entries _ _).mpr
    intro u clk found
    by_cases same : e.1 = u
    · subst same
      exact ⟨max e.2 clk, by simp [joinEntry, found], Nat.le_max_right _ _⟩
    · refine ⟨clk, ?_, Nat.le_refl _⟩
      unfold joinEntry
      split <;> simp [same, found]
  unfold join
  generalize other.map.toList = entries
  obtain ⟨map⟩ := vc
  induction entries generalizing map with
  | nil => exact happensBefore_refl _
  | cons e entries ih => exact happensBefore_trans (entry map e) (ih (joinEntry map e))

theorem equal_iff (vc other : VectorClock) : vc.equal other = true ↔ vc = other := by
  constructor
  · intro same
    simp only [equal, Bool.and_eq_true, decide_eq_true_eq, List.all_eq_true] at same
    obtain ⟨sizes, entries⟩ := same
    have lists : vc.map.toList = other.map.toList := by
      apply List.ext_getElem
      · simpa using sizes
      · intro n first second
        have member := List.getElem_mem (l := vc.map.toList.zip other.map.toList) (n := n)
          (by rw [List.length_zip]; exact Nat.lt_min.mpr ⟨first, second⟩)
        rw [List.getElem_zip] at member
        obtain ⟨keys, clocks⟩ := entries _ member
        exact Prod.ext keys clocks
    exact VectorClock.ext (Std.ExtTreeMap.ext_toList (List.Perm.of_eq lists))
  · rintro rfl
    simp only [equal, Bool.and_eq_true, decide_eq_true_eq, List.all_eq_true]
    refine ⟨trivial, fun pair member => ?_⟩
    obtain ⟨n, bound, rfl⟩ := List.getElem_of_mem member
    simp [List.getElem_zip]

theorem getClock_le_of_happensBefore {vc other : VectorClock} (ordered : vc.happensBefore other = true)
    (t : ThreadId) : vc.getClock t ≤ other.getClock t := by
  rw [happensBefore_iff_entries] at ordered
  unfold getClock
  cases found : vc.map[t]? with
  | none => simp
  | some clk =>
    obtain ⟨c, present, bound⟩ := ordered t clk found
    simp [present, bound]

/-- With positive stored entries `HappensBefore` is the componentwise order. -/
theorem happensBefore_iff (vc other : VectorClock)
    (positive : ∀ (t : ThreadId) (clk : ℕ), vc.map[t]? = some clk → 0 < clk) :
    vc.happensBefore other = true ↔ ∀ t, vc.getClock t ≤ other.getClock t := by
  refine ⟨getClock_le_of_happensBefore, fun all => ?_⟩
  rw [happensBefore_iff_entries]
  intro t clk found
  have bound := all t
  have pos := positive t clk found
  simp only [getClock, found, Option.getD_some] at bound
  cases present : other.map[t]? with
  | none => simp only [present, Option.getD_none] at bound; omega
  | some c => exact ⟨c, rfl, by simpa [present] using bound⟩

end VectorClock
end Maple
