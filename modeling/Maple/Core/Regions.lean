import Maple.Core.Filter
import Maple.Lib.SearchTree

/-! Allocated regions along a history of allocations and releases. While regions
are disjoint, the filter lets through exactly the accesses inside a live one. -/
namespace Maple

structure Region where
  addr : Address
  size : Address
  deriving DecidableEq

namespace Region

/-- Not empty, and its end is an address. -/
def Fits (r : Region) : Prop := r.addr ≠ 0 ∧ r.size ≠ 0 ∧ r.addr.toNat + r.size.toNat < 2 ^ 64

def Disjoint (r s : Region) : Prop :=
  r.addr.toNat + r.size.toNat ≤ s.addr.toNat ∨ s.addr.toNat + s.size.toNat ≤ r.addr.toNat

/-- All bytes of the access lie inside. -/
def Covers (r : Region) (addr size : Address) : Prop :=
  r.addr ≤ addr ∧ addr.toNat < r.addr.toNat + r.size.toNat ∧
    addr.toNat + size.toNat ≤ r.addr.toNat + r.size.toNat

instance (r : Region) : Decidable r.Fits := inferInstanceAs (Decidable (_ ∧ _))
instance (r s : Region) : Decidable (r.Disjoint s) := inferInstanceAs (Decidable (_ ∨ _))
instance (r : Region) (addr size : Address) : Decidable (r.Covers addr size) :=
  inferInstanceAs (Decidable (_ ∧ _))

theorem Disjoint.symm {r s : Region} (disjoint : r.Disjoint s) : s.Disjoint r := Or.symm disjoint

theorem Disjoint.addr_ne {r s : Region} (disjoint : r.Disjoint s) (fits : r.Fits) (fits' : s.Fits) :
    r.addr ≠ s.addr := by
  unfold Disjoint at disjoint
  unfold Fits at fits fits'
  bv_omega

end Region

inductive RegionOp where
  | alloc (r : Region)
  | free (addr : Address)
  deriving DecidableEq

namespace RegionOp

def apply (live : List Region) : RegionOp → List Region
  | .alloc r => r :: live
  | .free addr => live.filter fun r => r.addr ≠ addr

/-- New regions keep clear of the live ones. A release names a live region, is
null, or is of a block from elsewhere, which starts on a unit boundary. -/
def Admitted (unitSize : Address) (live : List Region) : RegionOp → Prop
  | .alloc r => r.Fits ∧ ∀ s ∈ live, r.Disjoint s
  | .free addr => addr = 0 ∨ (∃ r ∈ live, r.addr = addr) ∨ unitDownAlign addr unitSize = addr

instance (unitSize : Address) (live : List Region) (op : RegionOp) :
    Decidable (op.Admitted unitSize live) := by
  cases op <;> simp only [Admitted]
  · exact @instDecidableAnd _ _ _ (List.decidableBAll _ _)
  · exact @instDecidableOr _ _ _ (@instDecidableOr _ _ (List.decidableBEx _ _) _)

/-- Releasing `addr` ends the live region that covers unit `x`. -/
def Frees (unitSize : Address) (x : Address) (live : List Region) : RegionOp → Prop
  | .alloc _ => False
  | .free addr => ∃ r ∈ live, r.addr = addr ∧ x ∈ unitsOf unitSize addr r.size

instance (unitSize x : Address) (live : List Region) (op : RegionOp) :
    Decidable (op.Frees unitSize x live) := by
  cases op <;> simp only [Frees]
  · infer_instance
  · exact List.decidableBEx _ _

end RegionOp

/-- The operations of one hook, in order. -/
def AllAdmitted (unitSize : Address) : List Region → List RegionOp → Prop
  | _, [] => True
  | live, op :: ops => op.Admitted unitSize live ∧ AllAdmitted unitSize (op.apply live) ops

def SomeFrees (unitSize x : Address) : List Region → List RegionOp → Prop
  | _, [] => False
  | live, op :: ops => op.Frees unitSize x live ∨ SomeFrees unitSize x (op.apply live) ops

instance decidableAllAdmitted (unitSize : Address) :
    ∀ (live : List Region) (ops : List RegionOp), Decidable (AllAdmitted unitSize live ops)
  | _, [] => .isTrue trivial
  | live, op :: ops =>
    @instDecidableAnd _ _ inferInstance (decidableAllAdmitted unitSize (op.apply live) ops)

instance decidableSomeFrees (unitSize x : Address) :
    ∀ (live : List Region) (ops : List RegionOp), Decidable (SomeFrees unitSize x live ops)
  | _, [] => .isFalse id
  | live, op :: ops =>
    @instDecidableOr _ _ inferInstance (decidableSomeFrees unitSize x (op.apply live) ops)

theorem allAdmitted_append {unitSize : Address} {live : List Region} {first rest : List RegionOp} :
    AllAdmitted unitSize live (first ++ rest) ↔
      AllAdmitted unitSize live first ∧ AllAdmitted unitSize (first.foldl RegionOp.apply live) rest := by
  induction first generalizing live with
  | nil => simp [AllAdmitted]
  | cons op first ih => simp [AllAdmitted, ih, and_assoc]

theorem someFrees_append {unitSize x : Address} {live : List Region} {first rest : List RegionOp} :
    SomeFrees unitSize x live (first ++ rest) ↔
      SomeFrees unitSize x live first ∨ SomeFrees unitSize x (first.foldl RegionOp.apply live) rest := by
  induction first generalizing live with
  | nil => simp [SomeFrees]
  | cons op first ih => simp [SomeFrees, ih, or_assoc]

/-- A block that starts on a unit boundary and has no bytes covers no unit. -/
theorem unitsOf_zero {addr unitSize : Address} (aligned : unitDownAlign addr unitSize = addr) :
    unitsOf unitSize addr 0 = [] := by
  have apart : addr &&& (unitSize - 1) = 0 := by
    rw [← aligned]
    ext i
    simp [unitDownAlign, unitMask]
  have sum : addr + 0 + unitSize - 1 = addr ||| (unitSize - 1) := by
    rw [← BitVec.add_eq_or_of_and_eq_zero _ _ apart]
    bv_omega
  have up : unitUpAlign (addr + 0) unitSize = unitDownAlign addr unitSize := by
    rw [unitUpAlign, sum]
    ext i
    simp only [unitDownAlign, unitMask, BitVec.getElem_and, BitVec.getElem_or, BitVec.getElem_not]
    cases addr[i] <;> cases (unitSize - 1)[i] <;> rfl
  rw [unitsOf, up]
  simp [unitLoop]

theorem compare_isLE_iff (a b : Address) : (compare a b).isLE = true ↔ a ≤ b :=
  isLE_compareOfLessAndEq Std.le_antisymm Std.not_le fun _ _ => Std.le_total

/-- The filter's map holds the live regions. -/
structure RegionFilter.Tracks (f : RegionFilter) (live : List Region) : Prop where
  entries : ∀ addr size, f.addrRegionMap[addr]? = some size ↔ ⟨addr, size⟩ ∈ live
  fits : ∀ r ∈ live, r.Fits
  disjoint : ∀ r ∈ live, ∀ s ∈ live, r ≠ s → r.Disjoint s

namespace RegionFilter.Tracks
variable {f : RegionFilter} {live : List Region} {unitSize addr size x : Address}

theorem empty : RegionFilter.Tracks {} [] where
  entries := by simp
  fits := by simp
  disjoint := by simp

/-- The last region that starts at or below an address of a live region is that region. -/
theorem filter_eq_false (tracks : f.Tracks live) {r : Region} (member : r ∈ live)
    (covers : r.Covers addr size) : f.filter addr = false := by
  obtain ⟨above, below, -⟩ := covers
  have entry := (tracks.entries r.addr r.size).mpr member
  obtain ⟨b, w, found, entry', reached, greatest⟩ :=
    Std.ExtTreeMap.getEntryLE?_greatest entry ((compare_isLE_iff _ _).mpr above)
  have member' := (tracks.entries b w).mp entry'
  rw [compare_isLE_iff] at reached greatest
  have same : r = ⟨b, w⟩ := by
    by_contra other
    have apart := tracks.disjoint _ member _ member' other
    have fits := tracks.fits _ member
    have fits' := tracks.fits _ member'
    simp only [Region.Disjoint, Region.Fits] at apart fits fits'
    bv_omega
  have fits := tracks.fits _ member
  subst same
  simp only [Region.Fits] at fits
  have inside : b ≤ addr ∧ addr < b + w := by
    refine ⟨reached, ?_⟩
    bv_omega
  simp [filter, found, inside]

theorem addRegion (tracks : f.Tracks live) {r : Region}
    (admitted : (RegionOp.alloc r).Admitted unitSize live) :
    (f.addRegion r.addr r.size).Tracks (r :: live) where
  entries addr size := by
    obtain ⟨fits, apart⟩ := admitted
    rw [RegionFilter.addRegion, getElem?_insert_address, List.mem_cons]
    split
    · next same =>
      subst same
      have absent : ∀ size, ⟨r.addr, size⟩ ∉ live := fun size member =>
        (apart _ member).addr_ne fits (tracks.fits _ member) rfl
      simp only [Option.some.injEq, absent, or_false]
      constructor
      · rintro rfl
        rfl
      · exact fun same => (congrArg Region.size same).symm
    · next other =>
      have different : (⟨addr, size⟩ : Region) ≠ r := fun same => other (by rw [← same])
      simp only [different, false_or, tracks.entries]
  fits := by
    simp only [List.forall_mem_cons]
    exact ⟨admitted.1, tracks.fits⟩
  disjoint r₁ member s member' different := by
    rcases List.mem_cons.mp member with first | member
    · rcases List.mem_cons.mp member' with second | member'
      · exact absurd (first.trans second.symm) different
      · exact first ▸ admitted.2 s member'
    · rcases List.mem_cons.mp member' with second | member'
      · exact second ▸ (admitted.2 r₁ member).symm
      · exact tracks.disjoint r₁ member s member' different

/-- The size that `RemoveRegion` returns covers the units whose region ends. -/
theorem removeRegion (tracks : f.Tracks live)
    (admitted : (RegionOp.free addr).Admitted unitSize live) (present : addr ≠ 0) :
    (f.removeRegion addr).2.Tracks ((RegionOp.free addr).apply live) ∧
      ∀ x, x ∈ unitsOf unitSize addr (f.removeRegion addr).1 ↔
        (RegionOp.free addr).Frees unitSize x live := by
  cases found : f.addrRegionMap[addr]? with
  | none =>
    have absent : ∀ r ∈ live, r.addr ≠ addr := by
      rintro r member rfl
      exact nomatch found.symm.trans ((tracks.entries r.addr r.size).mpr member)
    have kept : (RegionOp.free addr).apply live = live :=
      List.filter_eq_self.mpr fun r member => by simpa using absent r member
    have aligned : unitDownAlign addr unitSize = addr := by
      rcases admitted with null | ⟨r, member, same⟩ | aligned
      · exact absurd null present
      · exact absurd same (absent r member)
      · exact aligned
    simp only [RegionFilter.removeRegion, if_neg present, found, kept]
    refine ⟨tracks, fun x => ?_⟩
    rw [unitsOf_zero aligned]
    constructor
    · exact fun member => nomatch member
    · rintro ⟨r, member, same, -⟩
      exact absurd same (absent r member)
  | some size =>
    have member := (tracks.entries addr size).mp found
    have only : ∀ r ∈ live, r.addr = addr → r = ⟨addr, size⟩ := by
      rintro r inside rfl
      have same := (tracks.entries r.addr r.size).mpr inside
      rw [found] at same
      cases same
      rfl
    simp only [RegionFilter.removeRegion, if_neg present, found]
    refine ⟨⟨fun b s => ?_, fun r inside => ?_, fun r inside s inside' different => ?_⟩, fun x => ⟨?_, ?_⟩⟩
    · rw [getElem?_erase_address]
      simp only [RegionOp.apply, List.mem_filter, decide_eq_true_eq]
      split
      · next same => simp [same]
      · next other => simp [tracks.entries, ne_comm.mp other]
    · exact tracks.fits r (List.mem_filter.mp inside).1
    · exact tracks.disjoint r (List.mem_filter.mp inside).1 s (List.mem_filter.mp inside').1 different
    · exact fun covered => ⟨_, member, rfl, covered⟩
    · rintro ⟨r, inside, same, covered⟩
      rwa [only r inside same] at covered

end RegionFilter.Tracks
end Maple
