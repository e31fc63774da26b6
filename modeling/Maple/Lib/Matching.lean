import Mathlib

/-! How many waiters can be given a token of their own. Where a waiter has all tokens
that are later than one of its own and pending for anybody, it may take its first one:
the others then lose nothing that they need. -/
namespace Matching
variable {W A : Type} {active M : Finset W} {S S' : W → Finset A} {u v w : W} {x : A}

/-- Waiters that can all be given a token of their own. -/
def Matched (S : W → Finset A) (M : Finset W) : Prop :=
  ∃ f : W → A, Set.InjOn f M ∧ ∀ u ∈ M, f u ∈ S u

open Classical in
/-- The largest number of active waiters that can be given a token of their own. -/
noncomputable def size (active : Finset W) (S : W → Finset A) : ℕ :=
  (active.powerset.filter (Matched S)).sup Finset.card

theorem le_size (within : M ⊆ active) (matched : Matched S M) : M.card ≤ size active S := by
  classical
  exact Finset.le_sup (f := Finset.card) (Finset.mem_filter.mpr ⟨Finset.mem_powerset.mpr within, matched⟩)

theorem size_le {n : ℕ} (bound : ∀ M ⊆ active, Matched S M → M.card ≤ n) : size active S ≤ n := by
  classical
  exact Finset.sup_le fun M member =>
    bound M (Finset.mem_powerset.mp (Finset.mem_filter.mp member).1) (Finset.mem_filter.mp member).2

variable [DecidableEq W]

/-- A waiter is given a token that nobody else has. -/
theorem injOn_update {f : W → A} (apart : Set.InjOn f M) (free : ∀ u ∈ M, u ≠ w → f u ≠ x) :
    Set.InjOn (Function.update f w x) (insert w M : Finset W) := by
  have others : ∀ u ∈ (insert w M : Finset W), u ≠ w → u ∈ M := fun u member different =>
    (Finset.mem_insert.mp member).resolve_left different
  intro a first b second same
  by_cases left : a = w
  · by_cases right : b = w
    · rw [left, right]
    · rw [left, Function.update_self, Function.update_of_ne right] at same
      exact absurd same.symm (free b (others b second right) right)
  · by_cases right : b = w
    · rw [right, Function.update_self, Function.update_of_ne left] at same
      exact absurd same (free a (others a first left) left)
    · rw [Function.update_of_ne left, Function.update_of_ne right] at same
      exact apart (others a first left) (others b second right) same

section Claim
variable [LinearOrder A] (here : w ∈ active) (first : x ∈ S w)
  (left : ∀ u ∈ active, u ≠ w → S' u = (S u).erase x)
include left

/-- Tokens other than the claimed one are still there. -/
theorem matched_left (within : M ⊆ active.erase w) {f : W → A} (apart : Set.InjOn f M)
    (owns : ∀ u ∈ M, f u ∈ S u) (other : ∀ u ∈ M, f u ≠ x) : Matched S' M := by
  refine ⟨f, apart, fun u member => ?_⟩
  obtain ⟨different, inside⟩ := Finset.mem_erase.mp (within member)
  rw [left u inside different]
  exact Finset.mem_erase.mpr ⟨other u member, owns u member⟩

include here first in
/-- The claimed token goes to its waiter. -/
theorem size_claim_lt : size (active.erase w) S' + 1 ≤ size active S := by
  suffices bound : size (active.erase w) S' ≤ size active S - 1 by
    have one : ({w} : Finset W).card ≤ size active S :=
      le_size (Finset.singleton_subset_iff.mpr here) ⟨fun _ => x, by simp, by simpa using first⟩
    rw [Finset.card_singleton] at one
    omega
  apply size_le
  rintro M within ⟨f, apart, owns⟩
  have absent : w ∉ M := fun member => (Finset.mem_erase.mp (within member)).1 rfl
  have old : ∀ u ∈ M, f u ∈ S u ∧ f u ≠ x := by
    intro u member
    obtain ⟨different, inside⟩ := Finset.mem_erase.mp (within member)
    have own := owns u member
    rw [left u inside different] at own
    exact ⟨(Finset.mem_erase.mp own).2, (Finset.mem_erase.mp own).1⟩
  have grown : (insert w M).card ≤ size active S := by
    apply le_size
    · exact Finset.insert_subset here (within.trans (Finset.erase_subset w active))
    · refine ⟨Function.update f w x, injOn_update apart fun u member _ => (old u member).2,
        fun u member => ?_⟩
      rcases Finset.mem_insert.mp member with rfl | inside
      · rwa [Function.update_self]
      · rw [Function.update_of_ne (by rintro rfl; exact absent inside)]
        exact (old u inside).1
  rw [Finset.card_insert_of_notMem absent] at grown
  omega

include here in
/-- If somebody else would have been given the claimed token, then it takes the one of
the waiter that claims. -/
theorem size_le_claim
    (suffix : ∀ u ∈ active, ∀ v ∈ active, ∀ x ∈ S u, ∀ y ∈ S v, x ≤ y → y ∈ S u)
    (least : ∀ y ∈ S w, x ≤ y) : size active S ≤ size (active.erase w) S' + 1 := by
  apply size_le
  rintro M within ⟨f, apart, owns⟩
  have rest : ∀ N ⊆ active.erase w, Matched S' N → M.card ≤ N.card + 1 →
      M.card ≤ size (active.erase w) S' + 1 := fun N inside matched few =>
    few.trans (Nat.succ_le_succ (le_size inside matched))
  by_cases taken : ∃ v ∈ M, v ≠ w ∧ f v = x
  · obtain ⟨v, member, different, rfl⟩ := taken
    have alone : ∀ u ∈ M, u ≠ v → f u ≠ f v := fun u inside other same => other (apart inside member same)
    by_cases mine : w ∈ M
    · have swapped : insert v ((M.erase w).erase v) = M.erase w :=
        Finset.insert_erase (Finset.mem_erase.mpr ⟨different, member⟩)
      have later : f w ∈ S v :=
        suffix v (within member) w here _ (owns v member) _ (owns w mine) (least _ (owns w mine))
      have clear : ∀ u ∈ (M.erase w).erase v, u ≠ v → f u ≠ f w := by
        intro u inside _ same
        have old := Finset.mem_erase.mp (Finset.mem_of_mem_erase inside)
        exact old.1 (apart old.2 mine same)
      have apart' : Set.InjOn (Function.update f v (f w)) (M.erase w : Finset W) := by
        rw [← swapped]
        apply injOn_update _ clear
        exact apart.mono ((Finset.erase_subset v _).trans (Finset.erase_subset w M))
      apply rest (M.erase w) (Finset.erase_subset_erase w within)
      · apply matched_left left (Finset.erase_subset_erase w within) apart'
        · intro u inside
          by_cases same : u = v
          · rw [same, Function.update_self]
            exact later
          · rw [Function.update_of_ne same]
            exact owns u (Finset.mem_of_mem_erase inside)
        · intro u inside
          by_cases same : u = v
          · rw [same, Function.update_self]
            exact alone w mine (Ne.symm different)
          · rw [Function.update_of_ne same]
            exact alone u (Finset.mem_of_mem_erase inside) same
      · rw [Finset.card_erase_of_mem mine]
        omega
    · have subset : M.erase v ⊆ active.erase w := by
        intro u inside
        obtain ⟨-, old⟩ := Finset.mem_erase.mp inside
        exact Finset.mem_erase.mpr ⟨fun same => mine (same ▸ old), within old⟩
      apply rest (M.erase v) subset
      · apply matched_left left subset (apart.mono (Finset.erase_subset v M))
        · exact fun u inside => owns u (Finset.mem_of_mem_erase inside)
        · exact fun u inside => alone u (Finset.mem_of_mem_erase inside) (Finset.ne_of_mem_erase inside)
      · rw [Finset.card_erase_of_mem member]
        omega
  · push Not at taken
    have subset : M.erase w ⊆ active.erase w := Finset.erase_subset_erase w within
    apply rest (M.erase w) subset
    · apply matched_left left subset (apart.mono (Finset.erase_subset w M))
      · exact fun u inside => owns u (Finset.mem_of_mem_erase inside)
      · exact fun u inside => taken u (Finset.mem_of_mem_erase inside) (Finset.ne_of_mem_erase inside)
    · have fewer := Finset.pred_card_le_card_erase (s := M) (a := w)
      omega

include here first in
/-- Nobody is stranded: the claim costs the claiming waiter only. -/
theorem size_claim
    (suffix : ∀ u ∈ active, ∀ v ∈ active, ∀ x ∈ S u, ∀ y ∈ S v, x ≤ y → y ∈ S u)
    (least : ∀ y ∈ S w, x ≤ y) : size (active.erase w) S' + 1 = size active S :=
  Nat.le_antisymm (size_claim_lt here first left) (size_le_claim here left suffix least)

end Claim

end Matching
