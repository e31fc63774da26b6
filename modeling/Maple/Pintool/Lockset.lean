import Maple.Core.BasicTypes

/-! `pintool/lockset.cpp`. The comparisons look at the sizes first; `operator<`
compares the sizes and a hash, so different sets can be equivalent under it. -/
namespace Maple.Pintool

@[ext] structure Lockset where
  set : Std.ExtTreeSet Address := ∅

namespace Lockset

def add (ls : Lockset) (addr : Address) : Lockset := ⟨ls.set.insert addr⟩
def remove (ls : Lockset) (addr : Address) : Lockset := ⟨ls.set.erase addr⟩
def isExist (ls : Lockset) (addr : Address) : Bool := ls.set.contains addr

def isSubsetOf (ls other : Lockset) : Bool :=
  if other.set.size < ls.set.size then false else ls.set.toList.all other.isExist

def isSupersetOf (ls other : Lockset) : Bool :=
  if ls.set.size < other.set.size then false else other.set.toList.all ls.isExist

/-- `operator==` -/
def isMatch (ls other : Lockset) : Bool :=
  if ls.set.size ≠ other.set.size then false else ls.set.toList.all other.isExist

def isDisjoint (ls other : Lockset) : Bool := ls.set.toList.all fun addr => !other.isExist addr

/-- The loop of `operator<` over one set. -/
def fold (ls : Lockset) : Address := ls.set.toList.foldl (fun a addr => (a <<< 1) ^^^ addr) 0

instance : Membership Address Lockset := ⟨fun ls addr => addr ∈ ls.set⟩

variable {ls other : Lockset} {a b : Address}

@[simp] theorem isExist_iff : ls.isExist a = true ↔ a ∈ ls := Std.ExtTreeSet.contains_iff_mem

theorem mem_toList : a ∈ ls.set.toList ↔ a ∈ ls := Std.ExtTreeSet.mem_toList

@[simp] theorem mem_add : b ∈ ls.add a ↔ a = b ∨ b ∈ ls := by
  refine Std.ExtTreeSet.mem_insert.trans ?_
  simp only [Std.compare_eq_iff_eq]
  rfl

@[simp] theorem mem_remove : b ∈ ls.remove a ↔ a ≠ b ∧ b ∈ ls := by
  refine Std.ExtTreeSet.mem_erase.trans ?_
  simp only [ne_eq, Std.compare_eq_iff_eq]
  rfl

@[simp] theorem not_mem_empty : a ∉ ({} : Lockset) := Std.ExtTreeSet.not_mem_empty

theorem nodup_toList (ls : Lockset) : ls.set.toList.Nodup := by
  refine Std.ExtTreeSet.distinct_toList.imp fun apart same => apart ?_
  simp [same]

/-- A subset is not larger, so the size test never decides against one. -/
theorem size_le (subset : ∀ a ∈ ls, a ∈ other) : ls.set.size ≤ other.set.size := by
  rw [← Std.ExtTreeSet.length_toList, ← Std.ExtTreeSet.length_toList]
  refine (List.subperm_of_subset ls.nodup_toList fun a member => ?_).length_le
  exact mem_toList.mpr (subset a (mem_toList.mp member))

theorem all_isExist_iff : ls.set.toList.all other.isExist = true ↔ ∀ a ∈ ls, a ∈ other := by
  simp only [List.all_eq_true, mem_toList, isExist_iff]

@[simp] theorem isSubsetOf_iff : ls.isSubsetOf other = true ↔ ∀ a ∈ ls, a ∈ other := by
  unfold isSubsetOf
  split
  · next larger =>
      refine iff_of_false (by simp) fun subset => ?_
      exact absurd (size_le subset) (Nat.not_le.mpr larger)
  · exact all_isExist_iff

@[simp] theorem isSupersetOf_iff : ls.isSupersetOf other = true ↔ ∀ a ∈ other, a ∈ ls := by
  unfold isSupersetOf
  split
  · next smaller =>
      refine iff_of_false (by simp) fun subset => ?_
      exact absurd (size_le subset) (Nat.not_le.mpr smaller)
  · exact all_isExist_iff

@[simp] theorem isDisjoint_iff : ls.isDisjoint other = true ↔ ∀ a ∈ ls, a ∉ other := by
  simp only [isDisjoint, List.all_eq_true, mem_toList, Bool.not_eq_true', ← Bool.not_eq_true,
    isExist_iff]

theorem isMatch_iff : ls.isMatch other = true ↔ ls = other := by
  unfold isMatch
  constructor
  · split
    · exact fun impossible => nomatch impossible
    · next same =>
        intro all
        rw [all_isExist_iff] at all
        have sizes : ls.set.toList.length = other.set.toList.length := by
          simpa [Std.ExtTreeSet.length_toList] using same
        have perm := (List.subperm_of_subset ls.nodup_toList fun a member =>
          mem_toList.mpr (all a (mem_toList.mp member))).perm_of_length_le (Nat.le_of_eq sizes.symm)
        ext a
        exact mem_toList.symm.trans (perm.mem_iff.trans mem_toList)
  · rintro rfl
    rw [if_neg (fun differ => differ rfl)]
    exact all_isExist_iff.mpr fun _ member => member

end Lockset
end Maple.Pintool
