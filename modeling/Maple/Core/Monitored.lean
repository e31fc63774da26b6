import Maple.Core.Regions

/-! What the filter must hold for a set of live regions, empty ones among them,
to be monitored exactly. -/
namespace Maple

namespace Region

def Contains (r : Region) (addr : Address) : Prop :=
  r.addr ≤ addr ∧ addr.toNat < r.addr.toNat + r.size.toNat

/-- The address is not null and the end of the region is an address. -/
def Placed (r : Region) : Prop := r.addr ≠ 0 ∧ r.addr.toNat + r.size.toNat < 2 ^ 64

/-- No byte is shared; an empty region has its first byte for itself. -/
def Apart (r s : Region) : Prop :=
  r.addr.toNat + max r.size.toNat 1 ≤ s.addr.toNat ∨ s.addr.toNat + max s.size.toNat 1 ≤ r.addr.toNat

instance (r : Region) (addr : Address) : Decidable (r.Contains addr) :=
  inferInstanceAs (Decidable (_ ∧ _))
instance (r : Region) : Decidable r.Placed := inferInstanceAs (Decidable (_ ∧ _))
instance (r s : Region) : Decidable (r.Apart s) := inferInstanceAs (Decidable (_ ∨ _))

theorem Apart.symm {r s : Region} (apart : r.Apart s) : s.Apart r := Or.symm apart

theorem Apart.addr_ne {r s : Region} (apart : r.Apart s) : r.addr ≠ s.addr := by
  unfold Apart at apart
  intro same
  rw [same] at apart
  omega

theorem Apart.not_contains {r s : Region} (apart : r.Apart s) {addr : Address} (inside : r.Contains addr) :
    ¬ s.Contains addr := by
  rintro ⟨reached, below⟩
  obtain ⟨reached', below'⟩ := inside
  rw [BitVec.le_def] at reached reached'
  unfold Apart at apart
  omega

theorem contains_start {r : Region} (bytes : r.size ≠ 0) : r.Contains r.addr := by
  refine ⟨BitVec.le_refl _, ?_⟩
  have positive : r.size.toNat ≠ 0 := fun none => bytes (BitVec.eq_of_toNat_eq none)
  omega

theorem not_contains_null {r : Region} (placed : r.Placed) : ¬ r.Contains 0 := by
  rintro ⟨reached, -⟩
  exact placed.1 (by bv_omega)

theorem not_contains_of_empty {r : Region} (empty : r.size = 0) (addr : Address) : ¬ r.Contains addr := by
  rintro ⟨reached, below⟩
  have none : r.size.toNat = 0 := congrArg BitVec.toNat empty
  rw [BitVec.le_def] at reached
  omega

end Region

/-- Regions that can be live together. -/
structure Separate (live : Set Region) : Prop where
  placed : ∀ r ∈ live, r.Placed
  apart : live.Pairwise Region.Apart

theorem Separate.mono {live fewer : Set Region} (separate : Separate live) (subset : fewer ⊆ live) :
    Separate fewer where
  placed r member := separate.placed r (subset member)
  apart := separate.apart.mono subset

theorem Separate.insert {live : Set Region} (separate : Separate live) {r : Region} (placed : r.Placed)
    (fresh : ∀ s ∈ live, r.Apart s) : Separate (insert r live) where
  placed s member := by
    rcases member with rfl | member
    · exact placed
    · exact separate.placed s member
  apart := separate.apart.insert fun s member _ => ⟨fresh s member, (fresh s member).symm⟩

/-- The bytes of the live regions. -/
def bytesOf (live : Set Region) : Set Address := {addr | ∃ r ∈ live, r.Contains addr}

/-- The live regions behind a release of `addr`. -/
def without (live : Set Region) (addr : Address) : Set Region := {r ∈ live | r.addr ≠ addr}

theorem without_subset (live : Set Region) (addr : Address) : without live addr ⊆ live := fun _ kept => kept.1

namespace RegionFilter

/-- The filter monitors every live region that has bytes, and nothing but live
regions. An entry of no bytes at the null address does no harm. -/
structure Monitors (f : RegionFilter) (live : Set Region) : Prop where
  sound : ∀ addr size, f.addrRegionMap[addr]? = some size → ⟨addr, size⟩ ∈ live ∨ addr = 0 ∧ size = 0
  complete : ∀ r ∈ live, r.size ≠ 0 → f.addrRegionMap[r.addr]? = some r.size

/-- The filter lets through exactly the bytes of the live regions. -/
def Exact (f : RegionFilter) (live : Set Region) : Prop :=
  ∀ addr, f.filter addr = false ↔ addr ∈ bytesOf live

theorem filter_eq_false_iff {f : RegionFilter} {addr : Address} : f.filter addr = false ↔
    ∃ start size, f.addrRegionMap.getEntryLE? addr = some (start, size) ∧ start ≤ addr ∧
      addr < start + size := by
  rw [filter]
  cases f.addrRegionMap.getEntryLE? addr with
  | none => simp
  | some entry =>
    obtain ⟨start, size⟩ := entry
    constructor
    · intro passed
      exact ⟨start, size, rfl, by simpa using passed⟩
    · rintro ⟨_, _, found, inside⟩
      cases found
      simpa using inside

namespace Monitors
variable {f : RegionFilter} {live fewer : Set Region} {addr size : Address}

/-- The last entry at or below an address is the region that contains it. -/
theorem exact (monitors : f.Monitors live) (separate : Separate live) : f.Exact live := by
  intro addr
  rw [filter_eq_false_iff]
  constructor
  · rintro ⟨start, size, found, reached, below⟩
    have entry := Std.ExtTreeMap.getElem?_of_getEntryLE? found
    rcases monitors.sound start size entry with member | ⟨rfl, rfl⟩
    · refine ⟨_, member, reached, ?_⟩
      have placed := (separate.placed _ member).2
      simp only at placed ⊢
      bv_omega
    · exact absurd below (by bv_omega)
  · rintro ⟨r, member, reached, below⟩
    have bytes : r.size ≠ 0 := by
      intro none
      exact Region.not_contains_of_empty none addr ⟨reached, below⟩
    have entry := monitors.complete r member bytes
    obtain ⟨start, size, found, entry', reached', greatest⟩ :=
      Std.ExtTreeMap.getEntryLE?_greatest entry ((compare_isLE_iff _ _).mpr reached)
    rw [compare_isLE_iff] at reached' greatest
    have placed := separate.placed r member
    have same : r = ⟨start, size⟩ := by
      rcases monitors.sound start size entry' with member' | ⟨rfl, -⟩
      · by_contra other
        have apart := separate.apart member member' other
        simp only [Region.Apart, BitVec.le_def] at apart reached' greatest
        omega
      · exact absurd (BitVec.eq_of_toNat_eq (by bv_omega)) placed.1
    subst same
    refine ⟨start, size, found, reached', ?_⟩
    have ends := placed.2
    simp only at below ends
    bv_omega

theorem addRegion (monitors : f.Monitors live) {r : Region} (fresh : ∀ s ∈ live, r.Apart s) :
    (f.addRegion r.addr r.size).Monitors (insert r live) where
  sound addr size entry := by
    simp only [RegionFilter.addRegion, getElem?_insert_address] at entry
    split at entry
    · next same =>
      cases entry
      exact Or.inl (Or.inl (by rw [← same]))
    · exact (monitors.sound addr size entry).imp_left Or.inr
  complete s member bytes := by
    rw [RegionFilter.addRegion, getElem?_insert_address]
    rcases member with rfl | member
    · exact if_pos rfl
    · rw [if_neg (fresh s member).addr_ne]
      exact monitors.complete s member bytes

/-- A null result for a request of no bytes. -/
theorem addNull (monitors : f.Monitors live) (separate : Separate live) :
    (f.addRegion 0 0).Monitors live where
  sound addr size entry := by
    simp only [RegionFilter.addRegion, getElem?_insert_address] at entry
    split at entry
    · next same =>
      cases entry
      exact Or.inr ⟨same.symm, rfl⟩
    · exact monitors.sound addr size entry
  complete r member bytes := by
    rw [RegionFilter.addRegion, getElem?_insert_address, if_neg (separate.placed r member).1.symm]
    exact monitors.complete r member bytes

theorem removeRegion (monitors : f.Monitors live) (separate : Separate live) (addr : Address) :
    (f.removeRegion addr).2.Monitors (without live addr) := by
  have lookup : ∀ b, b ≠ addr → (f.removeRegion addr).2.addrRegionMap[b]? = f.addrRegionMap[b]? := by
    intro b other
    unfold RegionFilter.removeRegion
    split
    · rfl
    · split
      · rfl
      · rw [getElem?_erase_address, if_neg other.symm]
  refine ⟨fun b size entry => ?_, fun r member bytes => ?_⟩
  · by_cases same : b = addr
    · subst same
      unfold RegionFilter.removeRegion at entry
      split at entry
      · next null =>
        rcases monitors.sound b size entry with member | none
        · exact absurd null (separate.placed _ member).1
        · exact Or.inr none
      · split at entry
        · next missing => exact nomatch missing.symm.trans entry
        · simp at entry
    · rw [lookup b same] at entry
      exact (monitors.sound b size entry).imp_left fun member => ⟨member, same⟩
  · rw [lookup r.addr member.2]
    exact monitors.complete r member.1 bytes

/-- Empty regions may be live without an entry. -/
theorem of_empty (monitors : f.Monitors fewer) (subset : fewer ⊆ live)
    (rest : ∀ r ∈ live, r ∉ fewer → r.size = 0) : f.Monitors live where
  sound addr size entry := (monitors.sound addr size entry).imp_left fun member => subset member
  complete r member bytes := by
    by_cases kept : r ∈ fewer
    · exact monitors.complete r kept bytes
    · exact absurd (rest r member kept) bytes

end Monitors

/-- A null result for a request of some bytes lets the null address through. -/
theorem addRegion_null_passes (f : RegionFilter) {size : Address} (bytes : size ≠ 0) :
    (f.addRegion 0 size).filter 0 = false := by
  rw [filter_eq_false_iff]
  have entry : (f.addRegion 0 size).addrRegionMap[(0 : Address)]? = some size := by
    rw [RegionFilter.addRegion, getElem?_insert_address, if_pos rfl]
  obtain ⟨start, width, found, entry', reached, -⟩ :=
    Std.ExtTreeMap.getEntryLE?_greatest entry ((compare_isLE_iff _ _).mpr (BitVec.le_refl 0))
  rw [compare_isLE_iff] at reached
  have null : start = 0 := BitVec.eq_of_toNat_eq (by bv_omega)
  subst null
  cases entry.symm.trans entry'
  exact ⟨0, size, found, reached, by bv_omega⟩

end RegionFilter
end Maple
