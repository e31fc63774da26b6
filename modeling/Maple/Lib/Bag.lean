import Mathlib

/-! Multisets kept in hash buckets and compared by the exclusive or of their hashes.
Equal multisets have equal sums, and the sum of a multiset that contains another one has
the same lower bits exactly when those of the surplus are zero. -/
namespace Bag

section Buckets
variable {H β : Type} [DecidableEq β] {hash : β → Option H} {buckets : H → List β} {m : Multiset β}

/-- Every element with a hash is in the bucket of its hash as often as in the multiset. -/
def Holds (hash : β → Option H) (buckets : H → List β) (m : Multiset β) : Prop :=
  ∀ x h, hash x = some h → (buckets h).count x = m.count x

theorem Holds.mem_iff (holds : Holds hash buckets m) {x : β} {h : H} (hashed : hash x = some h) :
    x ∈ buckets h ↔ x ∈ m := by
  rw [← List.count_pos_iff, ← Multiset.count_pos, holds x h hashed]

variable [DecidableEq H] {x : β} {h : H} {next : H → List β}

theorem Holds.push (holds : Holds hash buckets m) (hashed : hash x = some h)
    (pushed : ∀ k, next k = if h = k then buckets h ++ [x] else buckets k) :
    Holds hash next (x ::ₘ m) := by
  intro y k other
  by_cases same : h = k
  · subst same
    rw [pushed, if_pos rfl, List.count_append, holds y h other, Multiset.count_cons, List.count_singleton]
    by_cases this : y = x
    · subst this
      simp
    · simp [this, Ne.symm this]
  · have apart : y ≠ x := by
      rintro rfl
      exact same (Option.some.inj (hashed.symm.trans other))
    rw [pushed, if_neg same, holds y k other, Multiset.count_cons_of_ne apart]

theorem Holds.erase (holds : Holds hash buckets m) (hashed : hash x = some h)
    (erased : ∀ k, next k = if h = k then (buckets h).erase x else buckets k) :
    Holds hash next (m.erase x) := by
  intro y k other
  by_cases same : h = k
  · subst same
    rw [erased, if_pos rfl]
    by_cases this : y = x
    · subst this
      rw [List.count_erase_self, Multiset.count_erase_self, holds y h other]
    · rw [List.count_erase_of_ne this, Multiset.count_erase_of_ne this, holds y h other]
  · have apart : y ≠ x := by
      rintro rfl
      exact same (Option.some.inj (hashed.symm.trans other))
    rw [erased, if_neg same, holds y k other, Multiset.count_erase_of_ne apart]

theorem cons_le_iff {s : Multiset β} : x ::ₘ s ≤ m ↔ x ∈ m ∧ s ≤ m.erase x := by
  constructor
  · intro inside
    have member : x ∈ m := Multiset.mem_of_le inside (Multiset.mem_cons_self x s)
    refine ⟨member, ?_⟩
    rwa [← Multiset.cons_erase member, Multiset.cons_le_cons_iff] at inside
  · rintro ⟨member, inside⟩
    rw [← Multiset.cons_erase member]
    exact Multiset.cons_le_cons x inside

end Buckets

section Xor
variable {n : ℕ}

/-- The exclusive or of all elements. -/
def xorSum (m : Multiset (BitVec n)) : BitVec n := m.fold (fun x y : BitVec n => x ^^^ y) 0

@[simp] theorem xorSum_cons (x : BitVec n) (m : Multiset (BitVec n)) :
    xorSum (x ::ₘ m) = xorSum m ^^^ x :=
  Multiset.fold_cons_right (fun x y : BitVec n => x ^^^ y) 0 x m

theorem xorSum_add (m k : Multiset (BitVec n)) : xorSum (m + k) = xorSum m ^^^ xorSum k := by
  have added := Multiset.fold_add (fun x y : BitVec n => x ^^^ y) 0 0 m k
  simpa [xorSum] using added

/-- The lower bits of a sum stay when those of the added sum are zero. -/
theorem setWidth_xorSum_add_eq_iff (w : ℕ) (m k : Multiset (BitVec n)) :
    (xorSum (m + k)).setWidth w = (xorSum m).setWidth w ↔ (xorSum k).setWidth w = 0 := by
  rw [xorSum_add, BitVec.setWidth_xor]
  constructor
  · intro same
    have cancelled := congrArg ((xorSum m).setWidth w ^^^ ·) same
    simpa [← BitVec.xor_assoc] using cancelled
  · intro zero
    simp [zero]

end Xor

/-- A multiset and one that it contains have sums of hashes with the same lower bits when
those of the surplus are zero. -/
theorem setWidth_xorSum_eq_iff {β : Type} [DecidableEq β] {n : ℕ} (w : ℕ) (hash : β → Option (BitVec n))
    {m k : Multiset β} (inside : k ≤ m) :
    (xorSum (m.filterMap hash)).setWidth w = (xorSum (k.filterMap hash)).setWidth w ↔
      (xorSum ((m - k).filterMap hash)).setWidth w = 0 := by
  rw [← setWidth_xorSum_add_eq_iff w (k.filterMap hash), ← Multiset.filterMap_add, Multiset.add_comm,
    Multiset.sub_add_cancel inside]

end Bag
