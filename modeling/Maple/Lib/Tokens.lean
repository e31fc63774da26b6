import Mathlib

/-! Waiters that claim tokens. A token is issued to all that are waiting at the time,
and a waiter that leaves claims the first of its tokens, which the others lose. Tokens
are issued in order, so a waiter has all later tokens of the others; then it does not
matter for whom a token was meant. -/
namespace Tokens
variable {W A : Type} {active needy : Finset W} {S S' : W → Finset A} {u v w : W} {x : A}

/-- Those of the needy waiters that have at most `k` tokens. -/
def poor (needy : Finset W) (S : W → Finset A) (k : ℕ) : Finset W := needy.filter fun v => (S v).card ≤ k

theorem mem_poor {k : ℕ} : v ∈ poor needy S k ↔ v ∈ needy ∧ (S v).card ≤ k := Finset.mem_filter

variable [LinearOrder A]

/-- Every needy waiter will find a token, whoever leaves first. -/
structure Enough (active needy : Finset W) (S : W → Finset A) : Prop where
  subset : needy ⊆ active
  suffix : ∀ u ∈ active, ∀ v ∈ active, ∀ x ∈ S u, ∀ y ∈ S v, x ≤ y → y ∈ S u
  enough : ∀ k, (poor needy S k).card ≤ k

namespace Enough

theorem none : Enough ∅ ∅ S := ⟨Finset.Subset.refl _, nofun, fun k => Nat.zero_le k⟩

theorem nonempty (enough : Enough active needy S) (member : u ∈ needy) : (S u).Nonempty := by
  apply Finset.nonempty_iff_ne_empty.mpr
  intro empty
  have counted : u ∈ poor needy S 0 := mem_poor.mpr ⟨member, by rw [empty, Finset.card_empty]⟩
  have positive := Finset.card_pos.mpr ⟨u, counted⟩
  have bound := enough.enough 0
  omega

/-- Who lacks the first token of another has fewer. -/
theorem lacks_first_iff (enough : Enough active needy S) (here : w ∈ active) (first : x ∈ S w)
    (least : ∀ y ∈ S w, x ≤ y) (other : v ∈ active) : x ∉ S v ↔ (S v).card < (S w).card := by
  constructor
  · intro lacks
    apply Finset.card_lt_card
    refine ⟨fun y member => ?_, fun within => lacks (within first)⟩
    rcases le_total x y with above | below
    · exact enough.suffix w here v other x first y member above
    · exact absurd (enough.suffix v other w here y member x first below) lacks
  · intro fewer has
    have within : S w ⊆ S v := fun y member => enough.suffix v other w here x has y member (least y member)
    exact absurd (Finset.card_le_card within) (Nat.not_le.mpr fewer)

theorem congr (enough : Enough active needy S) (same : ∀ u ∈ active, S' u = S u) : Enough active needy S' where
  subset := enough.subset
  suffix u first v second := by
    rw [same u first, same v second]
    exact enough.suffix u first v second
  enough k := by
    have counted : poor needy S' k = poor needy S k :=
      Finset.filter_congr fun v member => by rw [same v (enough.subset member)]
    rw [counted]
    exact enough.enough k

/-- Where those with `c` tokens or more can spare one, so can the poor of any bound from
`c` on. -/
theorem spare_count (enough : Enough active needy S) {c k : ℕ}
    (spare : ∀ u ∈ needy, c ≤ (S u).card → (poor needy S (S u).card).card < (S u).card) (positive : 0 < c) (above : c ≤ k) :
    (poor needy S k).card < k := by
  by_cases heavy : ∃ u ∈ poor needy S k, c ≤ (S u).card
  · obtain ⟨top, inside, largest⟩ := Finset.exists_max_image _ (fun u => (S u).card) (heavy.imp fun u both => both.1)
    obtain ⟨u, member, large⟩ := heavy
    obtain ⟨own, few⟩ := mem_poor.mp inside
    have bound := spare top own (large.trans (largest u member))
    have counted : poor needy S k ⊆ poor needy S (S top).card := fun v member =>
      mem_poor.mpr ⟨(mem_poor.mp member).1, largest v member⟩
    have cards := Finset.card_le_card counted
    omega
  · push Not at heavy
    have counted : poor needy S k ⊆ poor needy S (c - 1) := fun v member =>
      mem_poor.mpr ⟨(mem_poor.mp member).1, Nat.le_sub_one_of_lt (heavy v member)⟩
    have cards := (Finset.card_le_card counted).trans (enough.enough (c - 1))
    omega

variable [DecidableEq W]

/-- A new waiter has no token. -/
theorem join (enough : Enough active needy S) (empty : S w = ∅) : Enough (insert w active) needy S where
  subset := enough.subset.trans (Finset.subset_insert _ _)
  suffix u first v second x mine y other below := by
    rcases Finset.mem_insert.mp first with rfl | first
    · simp [empty] at mine
    · rcases Finset.mem_insert.mp second with rfl | second
      · simp [empty] at other
      · exact enough.suffix u first v second x mine y other below
  enough := enough.enough

/-- A waiter without a token leaves. -/
theorem leave (enough : Enough active needy S) (empty : S w = ∅) : Enough (active.erase w) needy S where
  subset u member := by
    refine Finset.mem_erase.mpr ⟨?_, enough.subset member⟩
    rintro rfl
    exact (enough.nonempty member).ne_empty empty
  suffix u first v second :=
    enough.suffix u (Finset.mem_of_mem_erase first) v (Finset.mem_of_mem_erase second)
  enough := enough.enough

/-- A token is issued to all, and at most one waiter becomes needy. -/
theorem issue (enough : Enough active needy S) (new : ∀ u ∈ active, ∀ y ∈ S u, y < x)
    (given : ∀ u ∈ active, S' u = insert x (S u)) {needy' : Finset W}
    (subset : needy' ⊆ active) (one : needy' ⊆ insert w needy) : Enough active needy' S' where
  subset := subset
  suffix u first v second y mine z other below := by
    rw [given u first] at mine ⊢
    rw [given v second] at other
    rcases Finset.mem_insert.mp other with rfl | found
    · exact Finset.mem_insert_self _ _
    · rcases Finset.mem_insert.mp mine with rfl | mine
      · exact absurd below (not_le.mpr (new v second z found))
      · exact Finset.mem_insert_of_mem (enough.suffix u first v second y mine z found below)
  enough k := by
    have more : ∀ u ∈ needy', (S' u).card = (S u).card + 1 := by
      intro u member
      rw [given u (subset member), Finset.card_insert_of_notMem fun inside => lt_irrefl x (new u (subset member) x inside)]
    cases k with
    | zero =>
      have empty : poor needy' S' 0 = ∅ := by
        apply Finset.filter_false_of_mem
        intro u member
        rw [more u member]
        omega
      rw [empty, Finset.card_empty]
    | succ k =>
      have counted : poor needy' S' (k + 1) ⊆ insert w (poor needy S k) := by
        intro v member
        obtain ⟨own, few⟩ := mem_poor.mp member
        rw [more v own] at few
        rcases Finset.mem_insert.mp (one own) with rfl | before
        · exact Finset.mem_insert_self _ _
        · exact Finset.mem_insert_of_mem (mem_poor.mpr ⟨before, Nat.le_of_succ_le_succ few⟩)
      exact (Finset.card_le_card counted).trans ((Finset.card_insert_le _ _).trans
        (Nat.succ_le_succ (enough.enough k)))

/-- A waiter claims the first of its tokens. If it is not needy, then the needy
waiters that lose a token can spare one. -/
theorem claim (enough : Enough active needy S) (here : w ∈ active) (first : x ∈ S w) (least : ∀ y ∈ S w, x ≤ y)
    (spare : w ∉ needy → ∀ u ∈ needy, x ∈ S u → (poor needy S (S u).card).card < (S u).card)
    (left : ∀ u ∈ active, u ≠ w → S' u = (S u).erase x) : Enough (active.erase w) (needy.erase w) S' where
  subset := Finset.erase_subset_erase w enough.subset
  suffix u first v second y mine z other below := by
    obtain ⟨apart, first⟩ := Finset.mem_erase.mp first
    obtain ⟨apart', second⟩ := Finset.mem_erase.mp second
    rw [left u first apart] at mine ⊢
    rw [left v second apart'] at other
    obtain ⟨off, other⟩ := Finset.mem_erase.mp other
    exact Finset.mem_erase.mpr ⟨off, enough.suffix u first v second y (Finset.mem_of_mem_erase mine) z other below⟩
  enough k := by
    have positive := Finset.card_pos.mpr ⟨x, first⟩
    have sizes : ∀ v ∈ needy.erase w, (S' v).card = if (S w).card ≤ (S v).card then (S v).card - 1 else (S v).card := by
      intro v member
      obtain ⟨apart, own⟩ := Finset.mem_erase.mp member
      rw [left v (enough.subset own) apart]
      split
      · next large =>
          have has : x ∈ S v := by
            by_contra lacks
            exact absurd ((enough.lacks_first_iff here first least (enough.subset own)).mp lacks) (Nat.not_lt.mpr large)
          exact Finset.card_erase_of_mem has
      · next small =>
          have lacks := (enough.lacks_first_iff here first least (enough.subset own)).mpr (Nat.not_le.mp small)
          rw [Finset.erase_eq_of_notMem lacks]
    rcases Nat.lt_or_ge (k + 1) (S w).card with few | many
    · -- Too few tokens to have lost one.
      have counted : poor (needy.erase w) S' k ⊆ poor needy S k := by
        intro v member
        obtain ⟨own, bound⟩ := mem_poor.mp member
        rw [sizes v own] at bound
        refine mem_poor.mpr ⟨Finset.mem_of_mem_erase own, ?_⟩
        split at bound
        · omega
        · exact bound
      exact (Finset.card_le_card counted).trans (enough.enough k)
    · have counted : poor (needy.erase w) S' k ⊆ (poor needy S (k + 1)).erase w := by
        intro v member
        obtain ⟨own, bound⟩ := mem_poor.mp member
        rw [sizes v own] at bound
        obtain ⟨apart, own⟩ := Finset.mem_erase.mp own
        refine Finset.mem_erase.mpr ⟨apart, mem_poor.mpr ⟨own, ?_⟩⟩
        split at bound
        · omega
        · omega
      have cards := Finset.card_le_card counted
      by_cases mine : w ∈ needy
      · rw [Finset.card_erase_of_mem (mem_poor.mpr ⟨mine, many⟩)] at cards
        have bound := enough.enough (k + 1)
        omega
      · have bound : (poor needy S (k + 1)).card < k + 1 := by
          apply enough.spare_count _ positive many
          intro u own large
          apply spare mine u own
          by_contra lacks
          exact absurd ((enough.lacks_first_iff here first least (enough.subset own)).mp lacks) (Nat.not_lt.mpr large)
        have less := Finset.card_erase_le (s := poor needy S (k + 1)) (a := w)
        omega

end Enough
end Tokens
