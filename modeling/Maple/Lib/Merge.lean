import Mathlib

/-! Merging several increasing lists by cursors. A round finds the least head, collects the
heads that are equal to it and moves their cursors on. -/
namespace Merge
variable {L V I : Type} (before same : V → V → Bool)

/-- What is left of each list. -/
abbrev Cursors (L V I : Type) := List (L × List (V × I))

/-- The heads of the lists that are not finished. -/
def heads (cursors : Cursors L V I) : List V := cursors.filterMap fun cursor => cursor.2.head?.map Prod.fst

/-- The first pass of a round. -/
def least : List V → Option V
  | [] => none
  | first :: rest => some (rest.foldl (fun least v => if before v least then v else least) first)

def collect (v : V) (cursors : Cursors L V I) : List (L × I) :=
  cursors.filterMap fun cursor => cursor.2.head?.bind fun entry => if same entry.1 v then some (cursor.1, entry.2) else none

def advance (v : V) (cursors : Cursors L V I) : Cursors L V I :=
  cursors.map fun cursor => (cursor.1, if cursor.2.head?.any fun entry => same entry.1 v then cursor.2.tail else cursor.2)

/-- `none` when the rounds have run out. -/
def merge : ℕ → Cursors L V I → Option (List (V × List (L × I)))
  | 0, cursors => if (heads cursors).isEmpty then some [] else none
  | rounds + 1, cursors => match least before (heads cursors) with
    | none => some []
    | some v => (merge rounds (advance same v cursors)).map ((v, collect same v cursors) :: ·)

/-- The number of rounds that always suffices. -/
def size (cursors : Cursors L V I) : ℕ := (cursors.map fun cursor => cursor.2.length).sum

/-- A value of one of the lists. -/
def Value (cursors : Cursors L V I) (v : V) : Prop := ∃ cursor ∈ cursors, ∃ i, (v, i) ∈ cursor.2

/-- Increasing lists of values that are all comparable. -/
structure Mergeable (cursors : Cursors L V I) : Prop where
  same_iff : ∀ v w, same v w = true ↔ v = w
  trans : ∀ u v w, before u v = true → before v w = true → before u w = true
  total : ∀ v w, Value cursors v → Value cursors w → before v w = true ∨ before w v = true
  antisymm : ∀ v w, before v w = true → before w v = true → v = w
  increasing : ∀ cursor ∈ cursors, cursor.2.Pairwise fun e f => before e.1 f.1 = true ∧ e.1 ≠ f.1

variable {before same} {cursors : Cursors L V I} {u v w : V}

theorem mem_heads : v ∈ heads cursors ↔ ∃ cursor ∈ cursors, ∃ i rest, cursor.2 = (v, i) :: rest := by
  simp only [heads, List.mem_filterMap, Option.map_eq_some_iff, List.head?_eq_some_iff]
  constructor
  · rintro ⟨cursor, member, ⟨_, i⟩, ⟨rest, here⟩, rfl⟩
    exact ⟨cursor, member, i, rest, here⟩
  · rintro ⟨cursor, member, i, rest, here⟩
    exact ⟨cursor, member, (v, i), ⟨rest, here⟩, rfl⟩

theorem value_of_mem_heads (member : v ∈ heads cursors) : Value cursors v := by
  obtain ⟨cursor, listed, i, rest, here⟩ := mem_heads.mp member
  exact ⟨cursor, listed, i, by simp [here]⟩

/-- A minimum by a loop. -/
theorem foldl_min (trans : ∀ u v w, before u v = true → before v w = true → before u w = true) (rest : List V)
    {first : V} (total : ∀ v ∈ first :: rest, ∀ w ∈ first :: rest, before v w = true ∨ before w v = true) :
    let found := rest.foldl (fun least v => if before v least then v else least) first
    found ∈ first :: rest ∧ ∀ v ∈ first :: rest, before found v = true := by
  induction rest generalizing first with
  | nil =>
    have itself := (total first List.mem_cons_self first List.mem_cons_self).elim id id
    exact ⟨List.mem_cons_self, fun v member => by rwa [List.mem_singleton.mp member]⟩
  | cons second rest ih =>
    rw [List.foldl_cons]
    split
    · next less =>
      obtain ⟨member, below⟩ := ih fun v here w here' => total v (List.mem_cons_of_mem _ here) w (List.mem_cons_of_mem _ here')
      refine ⟨List.mem_cons_of_mem _ member, List.forall_mem_cons.mpr ⟨?_, below⟩⟩
      exact trans _ _ _ (below second List.mem_cons_self) less
    · next more =>
      have lifted : ∀ v ∈ first :: rest, v ∈ first :: second :: rest := by
        intro v here
        rcases List.mem_cons.mp here with rfl | here
        · exact List.mem_cons_self
        · exact List.mem_cons_of_mem _ (List.mem_cons_of_mem _ here)
      obtain ⟨member, below⟩ := ih fun v here w here' => total v (lifted v here) w (lifted w here')
      have second_here : second ∈ first :: second :: rest := List.mem_cons_of_mem _ List.mem_cons_self
      have under := (total first List.mem_cons_self second second_here).resolve_right more
      obtain ⟨below_first, below_rest⟩ := List.forall_mem_cons.mp below
      exact ⟨lifted _ member, List.forall_mem_cons.mpr ⟨below_first,
        List.forall_mem_cons.mpr ⟨trans _ _ _ below_first under, below_rest⟩⟩⟩

theorem least_spec (trans : ∀ u v w, before u v = true → before v w = true → before u w = true) {values : List V}
    (total : ∀ v ∈ values, ∀ w ∈ values, before v w = true ∨ before w v = true) (found : least before values = some u) :
    u ∈ values ∧ ∀ v ∈ values, before u v = true := by
  cases values with
  | nil => exact nomatch found
  | cons first rest =>
    cases found
    exact foldl_min trans rest total

theorem heads_eq_nil : heads cursors = [] ↔ ∀ v, ¬Value cursors v := by
  constructor
  · rintro none v ⟨cursor, member, i, here⟩
    obtain ⟨entry, rest, shape⟩ := List.exists_cons_of_ne_nil (List.ne_nil_of_mem here)
    exact nomatch none ▸ mem_heads.mpr ⟨cursor, member, entry.2, rest, shape⟩
  · intro none
    exact List.eq_nil_iff_forall_not_mem.mpr fun v member => none v (value_of_mem_heads member)

namespace Mergeable

/-- The least head is below every value. -/
theorem least (mergeable : Mergeable before same cursors) (found : Merge.least before (heads cursors) = some u) :
    u ∈ heads cursors ∧ ∀ v, Value cursors v → before u v = true := by
  obtain ⟨member, below⟩ := least_spec mergeable.trans
    (fun v here w here' => mergeable.total v w (value_of_mem_heads here) (value_of_mem_heads here')) found
  refine ⟨member, ?_⟩
  rintro v ⟨cursor, listed, i, here⟩
  have sorted := mergeable.increasing cursor listed
  cases shape : cursor.2 with
  | nil => simp [shape] at here
  | cons entry rest =>
    have under := below entry.1 (mem_heads.mpr ⟨cursor, listed, entry.2, rest, shape⟩)
    rw [shape] at here sorted
    rcases List.mem_cons.mp here with rfl | here
    · exact under
    · exact mergeable.trans _ _ _ under ((List.pairwise_cons.mp sorted).1 (v, i) here).1

/-- A least value stands at the head of its list. -/
theorem head_of_mem (mergeable : Mergeable before same cursors) (below : ∀ v, Value cursors v → before u v = true)
    {cursor : L × List (V × I)} (listed : cursor ∈ cursors) {i : I} (here : (u, i) ∈ cursor.2) :
    ∃ rest, cursor.2 = (u, i) :: rest := by
  have sorted := mergeable.increasing cursor listed
  cases shape : cursor.2 with
  | nil => simp [shape] at here
  | cons entry rest =>
    rw [shape] at here sorted
    rcases List.mem_cons.mp here with rfl | later
    · exact ⟨rest, rfl⟩
    · obtain ⟨under, differs⟩ := (List.pairwise_cons.mp sorted).1 (u, i) later
      have above := below entry.1 ⟨cursor, listed, entry.2, by simp [shape]⟩
      exact absurd (mergeable.antisymm _ _ under above) differs

theorem mem_collect (mergeable : Mergeable before same cursors) (below : ∀ v, Value cursors v → before u v = true)
    {l : L} {i : I} : (l, i) ∈ collect same u cursors ↔ ∃ cursor ∈ cursors, cursor.1 = l ∧ (u, i) ∈ cursor.2 := by
  simp only [collect, List.mem_filterMap, Option.bind_eq_some_iff, List.head?_eq_some_iff]
  constructor
  · rintro ⟨cursor, listed, ⟨v, j⟩, ⟨rest, shape⟩, passed⟩
    split at passed
    · next equal =>
      cases passed
      rw [mergeable.same_iff] at equal
      cases equal
      exact ⟨cursor, listed, rfl, by simp [shape]⟩
    · exact nomatch passed
  · rintro ⟨cursor, listed, rfl, here⟩
    obtain ⟨rest, shape⟩ := mergeable.head_of_mem below listed here
    exact ⟨cursor, listed, (u, i), ⟨rest, shape⟩, by simp [(mergeable.same_iff u u).mpr rfl]⟩

/-- One list has lost the least value. -/
theorem mem_advanced (mergeable : Mergeable before same cursors) (below : ∀ v, Value cursors v → before u v = true)
    {cursor : L × List (V × I)} (listed : cursor ∈ cursors) {entry : V × I} :
    entry ∈ (if cursor.2.head?.any (fun entry => same entry.1 u) then cursor.2.tail else cursor.2) ↔
      entry.1 ≠ u ∧ entry ∈ cursor.2 := by
  have sorted := mergeable.increasing cursor listed
  have at_head : ∀ i, (u, i) ∈ cursor.2 → ∃ rest, cursor.2 = (u, i) :: rest := fun i =>
    mergeable.head_of_mem below listed
  cases shape : cursor.2 with
  | nil => simp
  | cons first rest =>
    rw [shape] at sorted at_head
    obtain ⟨behind, -⟩ := List.pairwise_cons.mp sorted
    have test : (first :: rest).head?.any (fun entry => same entry.1 u) = same first.1 u := rfl
    rw [test]
    by_cases equal : first.1 = u
    · rw [if_pos ((mergeable.same_iff _ _).mpr equal), List.tail_cons, List.mem_cons]
      constructor
      · intro later
        exact ⟨fun eq => (behind entry later).2 (equal.trans eq.symm), Or.inr later⟩
      · rintro ⟨differs, rfl | later⟩
        · exact absurd equal differs
        · exact later
    · rw [if_neg fun passed => equal ((mergeable.same_iff _ _).mp passed)]
      refine ⟨fun here => ⟨?_, here⟩, And.right⟩
      rintro rfl
      obtain ⟨tail, split⟩ := at_head entry.2 here
      exact equal (congrArg Prod.fst (List.cons.inj split).1)

/-- What is left of the lists has lost the least value. -/
theorem mem_advance (mergeable : Mergeable before same cursors) (below : ∀ v, Value cursors v → before u v = true)
    {l : L} {i : I} : (∃ cursor ∈ advance same u cursors, cursor.1 = l ∧ (v, i) ∈ cursor.2) ↔
      v ≠ u ∧ ∃ cursor ∈ cursors, cursor.1 = l ∧ (v, i) ∈ cursor.2 := by
  simp only [advance, List.mem_map, exists_exists_and_eq_and]
  constructor
  · rintro ⟨cursor, listed, rfl, here⟩
    obtain ⟨differs, here⟩ := (mergeable.mem_advanced below listed).mp here
    exact ⟨differs, cursor, listed, rfl, here⟩
  · rintro ⟨differs, cursor, listed, rfl, here⟩
    exact ⟨cursor, listed, rfl, (mergeable.mem_advanced below listed).mpr ⟨differs, here⟩⟩

theorem value_advance (mergeable : Mergeable before same cursors) (below : ∀ v, Value cursors v → before u v = true) :
    Value (advance same u cursors) v ↔ v ≠ u ∧ Value cursors v := by
  constructor
  · rintro ⟨cursor, listed, i, here⟩
    obtain ⟨differs, cursor', listed', -, here'⟩ := (mergeable.mem_advance below).mp ⟨cursor, listed, rfl, here⟩
    exact ⟨differs, cursor', listed', i, here'⟩
  · rintro ⟨differs, cursor, listed, i, here⟩
    obtain ⟨cursor', listed', -, here'⟩ := (mergeable.mem_advance below).mpr ⟨differs, cursor, listed, rfl, here⟩
    exact ⟨cursor', listed', i, here'⟩

theorem advance (mergeable : Mergeable before same cursors) (below : ∀ v, Value cursors v → before u v = true) :
    Mergeable before same (Merge.advance same u cursors) where
  same_iff := mergeable.same_iff
  trans := mergeable.trans
  total v w here here' :=
    mergeable.total v w ((mergeable.value_advance below).mp here).2 ((mergeable.value_advance below).mp here').2
  antisymm := mergeable.antisymm
  increasing := by
    intro cursor listed
    obtain ⟨old, member, rfl⟩ := List.mem_map.mp listed
    dsimp only
    split
    · exact (mergeable.increasing old member).sublist (List.tail_sublist _)
    · exact mergeable.increasing old member

end Mergeable

theorem size_advance_le : size (advance same u cursors) ≤ size cursors := by
  induction cursors with
  | nil => exact Nat.le_refl _
  | cons cursor rest ih =>
    simp only [size, advance, List.map_cons, List.sum_cons] at ih ⊢
    apply Nat.add_le_add _ ih
    split
    · exact (List.tail_sublist _).length_le
    · exact Nat.le_refl _

/-- A round with a head to collect uses up an entry. -/
theorem size_advance_lt (same_iff : ∀ v w, same v w = true ↔ v = w) (head : u ∈ heads cursors) :
    size (advance same u cursors) < size cursors := by
  induction cursors with
  | nil => exact nomatch head
  | cons cursor rest ih =>
    obtain ⟨found, listed, i, tail, shape⟩ := mem_heads.mp head
    have step_le : size (advance same u rest) ≤ size rest := size_advance_le
    rcases List.mem_cons.mp listed with rfl | listed
    · simp only [size, advance, List.map_cons, List.sum_cons, shape, List.head?_cons, Option.any_some,
        (same_iff u u).mpr rfl, if_true, List.tail_cons, List.length_cons] at step_le ⊢
      omega
    · have smaller := ih (mem_heads.mpr ⟨found, listed, i, tail, shape⟩)
      simp only [size, advance, List.map_cons, List.sum_cons] at smaller ⊢
      apply Nat.add_lt_add_of_le_of_lt _ smaller
      split
      · exact (List.tail_sublist _).length_le
      · exact Nat.le_refl _

/-- A merge lists each value once, in order, with all its entries. -/
structure Merged (before : V → V → Bool) (cursors : Cursors L V I) (out : List (V × List (L × I))) : Prop where
  increasing : out.Pairwise fun e f => before e.1 f.1 = true ∧ e.1 ≠ f.1
  values : ∀ v, (∃ group, (v, group) ∈ out) ↔ Value cursors v
  groups : ∀ v group, (v, group) ∈ out →
    ∀ l i, (l, i) ∈ group ↔ ∃ cursor ∈ cursors, cursor.1 = l ∧ (v, i) ∈ cursor.2

theorem merge_spec (mergeable : Mergeable before same cursors) {rounds : ℕ} (enough : size cursors ≤ rounds) :
    ∃ out, merge before same rounds cursors = some out ∧ Merged before cursors out := by
  induction rounds generalizing cursors with
  | zero =>
    have none_left : heads cursors = [] := by
      apply List.eq_nil_iff_forall_not_mem.mpr
      intro v head
      have smaller := size_advance_lt mergeable.same_iff head
      omega
    refine ⟨[], by simp [merge, none_left], List.Pairwise.nil, fun v => ?_, fun _ _ member => nomatch member⟩
    exact iff_of_false (fun ⟨_, member⟩ => nomatch member) (heads_eq_nil.mp none_left v)
  | succ rounds ih =>
    cases found : least before (heads cursors) with
    | none =>
      have none_left : heads cursors = [] := by
        cases shape : heads cursors with
        | nil => rfl
        | cons first rest => simp [shape, least] at found
      refine ⟨[], by simp [merge, none_left, least], List.Pairwise.nil, fun v => ?_, fun _ _ member => nomatch member⟩
      exact iff_of_false (fun ⟨_, member⟩ => nomatch member) (heads_eq_nil.mp none_left v)
    | some u =>
      obtain ⟨head, below⟩ := mergeable.least found
      have smaller := size_advance_lt mergeable.same_iff head
      obtain ⟨out, merged, spec⟩ := ih (mergeable.advance below) (by omega)
      have later : ∀ v group, (v, group) ∈ out → v ≠ u ∧ Value cursors v := fun v group member =>
        (mergeable.value_advance below).mp ((spec.values v).mp ⟨group, member⟩)
      refine ⟨(u, collect same u cursors) :: out, by simp only [merge, found, merged, Option.map_some], ?_, ?_, ?_⟩
      · refine List.pairwise_cons.mpr ⟨?_, spec.increasing⟩
        rintro ⟨v, group⟩ member
        obtain ⟨differs, value⟩ := later v group member
        exact ⟨below v value, Ne.symm differs⟩
      · intro v
        by_cases same_v : v = u
        · subst same_v
          exact iff_of_true ⟨_, List.mem_cons_self⟩ (value_of_mem_heads head)
        · have other : ∀ group, (v, group) ∈ (u, collect same u cursors) :: out ↔ (v, group) ∈ out := by
            simp [same_v]
          have values := (spec.values v).trans (mergeable.value_advance below)
          simp only [other, values, ne_eq, same_v, not_false_eq_true, true_and]
      · intro v group member l i
        rcases List.mem_cons.mp member with same_entry | member
        · cases same_entry
          exact mergeable.mem_collect below
        · rw [spec.groups v group member l i, mergeable.mem_advance below]
          exact and_iff_right (later v group member).1

end Merge
