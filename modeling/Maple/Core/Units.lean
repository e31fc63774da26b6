import Maple.Core.Monitored

/-! Alignment as arithmetic. For a unit size that is a power of two, a loop over
units visits exactly the units that overlap its range of bytes, unless rounding up
its end wraps around. -/
namespace Maple

/-- The range of bytes reaches into unit `x`; an empty range inside a unit does, too. -/
def Overlaps (unitSize x addr size : Address) : Prop :=
  x.toNat < addr.toNat + size.toNat ∧ addr.toNat < x.toNat + unitSize.toNat

def IsUnit (unitSize x : Address) : Prop := unitDownAlign x unitSize = x

/-- The end of the range can be rounded up to a unit boundary. -/
def RoundsUp (unitSize addr size : Address) : Prop :=
  addr.toNat + size.toNat + unitSize.toNat ≤ 2 ^ 64

instance (unitSize x addr size : Address) : Decidable (Overlaps unitSize x addr size) :=
  inferInstanceAs (Decidable (_ ∧ _))
instance (unitSize x : Address) : Decidable (IsUnit unitSize x) := inferInstanceAs (Decidable (_ = _))
instance (unitSize addr size : Address) : Decidable (RoundsUp unitSize addr size) :=
  inferInstanceAs (Decidable (_ ≤ _))

section Power
variable {unitSize : Address} {k : ℕ} {x addr size : Address}

theorem toNat_sub_one (power : unitSize.toNat = 2 ^ k) : (unitSize - 1).toNat = 2 ^ k - 1 := by
  have positive := Nat.two_pow_pos k
  rw [← power] at positive ⊢
  bv_omega

/-- Masking drops the remainder. -/
theorem toNat_unitDownAlign (power : unitSize.toNat = 2 ^ k) (addr : Address) :
    (unitDownAlign addr unitSize).toNat = addr.toNat - addr.toNat % 2 ^ k := by
  have apart : unitDownAlign addr unitSize &&& (addr &&& (unitSize - 1)) = 0 := by
    ext i
    simp only [unitDownAlign, unitMask, BitVec.getElem_and, BitVec.getElem_not]
    cases addr[i] <;> cases (unitSize - 1)[i] <;> simp
  have whole : addr = unitDownAlign addr unitSize + (addr &&& (unitSize - 1)) := by
    rw [BitVec.add_eq_or_of_and_eq_zero _ _ apart]
    ext i
    simp only [unitDownAlign, unitMask, BitVec.getElem_and, BitVec.getElem_or, BitVec.getElem_not]
    cases addr[i] <;> cases (unitSize - 1)[i] <;> rfl
  have remainder : (addr &&& (unitSize - 1)).toNat = addr.toNat % 2 ^ k := by
    rw [BitVec.toNat_and, toNat_sub_one power, Nat.and_two_pow_sub_one_eq_mod]
  have sum := congrArg BitVec.toNat whole
  rw [BitVec.toNat_add_of_and_eq_zero apart, remainder] at sum
  omega

theorem isUnit_iff (power : unitSize.toNat = 2 ^ k) : IsUnit unitSize x ↔ 2 ^ k ∣ x.toNat := by
  have below := Nat.mod_le x.toNat (2 ^ k)
  rw [IsUnit, ← BitVec.toNat_inj, toNat_unitDownAlign power, Nat.dvd_iff_mod_eq_zero]
  omega

theorem toNat_unitUpAlign (power : unitSize.toNat = 2 ^ k) (rounds : RoundsUp unitSize addr size) :
    (unitUpAlign (addr + size) unitSize).toNat =
      (addr.toNat + size.toNat + 2 ^ k - 1) / 2 ^ k * 2 ^ k := by
  have positive := Nat.two_pow_pos k
  have sum : (addr + size + unitSize - 1).toNat = addr.toNat + size.toNat + 2 ^ k - 1 := by
    rw [RoundsUp] at rounds
    rw [← power] at positive ⊢
    bv_omega
  have masked : unitUpAlign (addr + size) unitSize = unitDownAlign (addr + size + unitSize - 1) unitSize := rfl
  rw [masked, toNat_unitDownAlign power, sum, Nat.div_mul_self_eq_mod_sub_self]

/-- The loop visits every unit from its start to before its end. -/
theorem mem_unitLoop_iff (power : unitSize.toNat = 2 ^ k) {stop : Address} (aligned : 2 ^ k ∣ stop.toNat)
    (rounds : ℕ) (start : Address) (enough : stop.toNat - start.toNat ≤ rounds) (unit : 2 ^ k ∣ start.toNat) :
    x ∈ unitLoop unitSize stop rounds start ↔ 2 ^ k ∣ x.toNat ∧ start ≤ x ∧ x < stop := by
  have positive := Nat.two_pow_pos k
  induction rounds generalizing start with
  | zero =>
    simp only [unitLoop, List.not_mem_nil, false_iff, not_and]
    intro _ reached below
    bv_omega
  | succ rounds ih =>
    rw [unitLoop]
    split
    · next below =>
      have room : start.toNat + 2 ^ k ≤ stop.toNat := by
        obtain ⟨a, stops⟩ := aligned
        obtain ⟨b, starts⟩ := unit
        have less := BitVec.lt_def.mp below
        rw [stops, starts] at less ⊢
        have step : b + 1 ≤ a := Nat.lt_of_mul_lt_mul_left less
        calc 2 ^ k * b + 2 ^ k = 2 ^ k * (b + 1) := (Nat.mul_succ _ _).symm
          _ ≤ 2 ^ k * a := Nat.mul_le_mul_left _ step
      have next : (start + unitSize).toNat = start.toNat + 2 ^ k := by
        have bound := stop.isLt
        rw [← power] at room ⊢
        bv_omega
      have later := ih (start + unitSize) (by omega) (next ▸ Nat.dvd_add unit (Nat.dvd_refl _))
      rw [List.mem_cons]
      constructor
      · rintro (rfl | visited)
        · exact ⟨unit, BitVec.le_refl _, below⟩
        · obtain ⟨member, reached, below'⟩ := later.mp visited
          refine ⟨member, ?_, below'⟩
          rw [BitVec.le_def] at reached ⊢
          omega
      · rintro ⟨member, reached, below'⟩
        by_cases same : x = start
        · exact Or.inl same
        · refine Or.inr (later.mpr ⟨member, ?_, below'⟩)
          have different : start.toNat ≠ x.toNat := fun equal => same (BitVec.eq_of_toNat_eq equal.symm)
          rw [BitVec.le_def] at reached ⊢
          have gap : 2 ^ k ∣ x.toNat - start.toNat := Nat.dvd_sub member unit
          have least := Nat.le_of_dvd (by omega) gap
          omega
    · next done =>
      simp only [List.not_mem_nil, false_iff, not_and]
      intro _ reached below
      rw [BitVec.le_def] at reached
      rw [BitVec.lt_def] at done below
      omega

/-- Exactly the overlapping units are visited. -/
theorem mem_unitsOf_iff (power : unitSize.toNat = 2 ^ k) (rounds : RoundsUp unitSize addr size) :
    x ∈ unitsOf unitSize addr size ↔ IsUnit unitSize x ∧ Overlaps unitSize x addr size := by
  have positive := Nat.two_pow_pos k
  have down := toNat_unitDownAlign power addr
  have up := toNat_unitUpAlign power rounds
  rw [unitsOf, mem_unitLoop_iff power (up ▸ Nat.dvd_mul_left _ _) _ _ le_rfl
    (down ▸ Nat.dvd_sub_mod _), isUnit_iff power, BitVec.le_def, BitVec.lt_def, down, up, Overlaps, power]
  refine and_congr_right fun unit => ?_
  obtain ⟨a, starts⟩ := unit
  rw [starts]
  have first : addr.toNat - addr.toNat % 2 ^ k ≤ 2 ^ k * a ↔ addr.toNat < 2 ^ k * a + 2 ^ k := by
    rw [← Nat.mul_div_self_eq_mod_sub_self, Nat.mul_le_mul_left_iff positive, ← Nat.lt_succ_iff,
      Nat.div_lt_iff_lt_mul positive, Nat.succ_mul, Nat.mul_comm a]
  have last : 2 ^ k * a < (addr.toNat + size.toNat + 2 ^ k - 1) / 2 ^ k * 2 ^ k ↔
      2 ^ k * a < addr.toNat + size.toNat := by
    rw [Nat.mul_comm, Nat.mul_lt_mul_right positive, ← Nat.succ_le_iff, Nat.le_div_iff_mul_le positive,
      Nat.succ_mul]
    omega
  rw [first, last, and_comm]

end Power
end Maple
