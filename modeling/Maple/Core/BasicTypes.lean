import Mathlib

/-! Scalar types and alignment macros of `core/basictypes.h`. A `timestamp_t`
counts hook calls and is a plain natural number here; addresses keep their 64
bits, since alignment is a bit operation. -/
namespace Maple

abbrev ThreadId := ℕ
abbrev Address := BitVec 64

/-- Identity of an `Inst *`. -/
abbrev InstId := ℕ

/-- `std::map`: iteration is in key order. -/
abbrev OrdMap (K V : Type) [Ord K] := Std.ExtTreeMap K V

instance transOrdAddress : Std.TransOrd Address := inferInstance
instance transOrdWord : Std.TransOrd (BitVec 32) := inferInstance

@[simp] theorem getElem?_insert_thread {V : Type} (map : OrdMap ThreadId V) (t u : ThreadId) (v : V) :
    (map.insert t v)[u]? = if t = u then some v else map[u]? := by
  simp [Std.ExtTreeMap.getElem?_insert]

@[simp] theorem getElem?_insert_address {V : Type} (map : OrdMap Address V) (a b : Address) (v : V) :
    (map.insert a v)[b]? = if a = b then some v else map[b]? := by
  simp [Std.ExtTreeMap.getElem?_insert]

@[simp] theorem getElem?_erase_address {V : Type} (map : OrdMap Address V) (a b : Address) :
    (map.erase a)[b]? = if a = b then none else map[b]? := by
  simp [Std.ExtTreeMap.getElem?_erase]

def invalidThdId : ThreadId := 2 ^ 64 - 1

def unitMask (unitSize : Address) : Address := ~~~(unitSize - 1)
def unitDownAlign (addr unitSize : Address) : Address := addr &&& unitMask unitSize
def unitUpAlign (addr unitSize : Address) : Address := (addr + unitSize - 1) &&& unitMask unitSize

/-- `for (iaddr = start; iaddr < end; iaddr += unit_size)`. Every round moves
`iaddr` up without wrapping, so the length of the range bounds the rounds. -/
def unitLoop (unitSize stop : Address) : ℕ → Address → List Address
  | 0, _ => []
  | rounds + 1, iaddr =>
    if iaddr < stop then iaddr :: unitLoop unitSize stop rounds (iaddr + unitSize) else []

/-- The units that an access or a region of `size` bytes at `addr` covers. -/
def unitsOf (unitSize addr size : Address) : List Address :=
  let start := unitDownAlign addr unitSize
  let stop := unitUpAlign (addr + size) unitSize
  unitLoop unitSize stop (stop.toNat - start.toNat) start

example : unitsOf 4 6 4 = [4, 8] := by decide

theorem toNat_unitUpAlign_add (addr unitSize : Address) :
    (unitUpAlign addr unitSize + (unitSize - 1)).toNat =
      (unitUpAlign addr unitSize).toNat + (unitSize - 1).toNat := by
  refine BitVec.toNat_add_of_and_eq_zero ?_
  ext i
  simp [unitUpAlign, unitMask]

/-- Below an aligned end the loop variable never wraps around. -/
theorem toNat_unit_step {addr unitSize iaddr : Address} (below : iaddr < unitUpAlign addr unitSize) :
    (iaddr + unitSize).toNat = iaddr.toNat + unitSize.toNat ∧ 0 < unitSize.toNat := by
  have aligned := toNat_unitUpAlign_add addr unitSize
  have bound := (unitUpAlign addr unitSize + (unitSize - 1)).isLt
  have less := BitVec.lt_def.mp below
  have positive : unitSize ≠ 0 := by
    rintro rfl
    simp [unitUpAlign, unitMask] at below
  bv_omega

theorem unitLoop_above (unitSize addr : Address) (rounds : ℕ) (iaddr x : Address)
    (member : x ∈ unitLoop unitSize (unitUpAlign addr unitSize) rounds iaddr) : iaddr ≤ x := by
  induction rounds generalizing iaddr with
  | zero => simp [unitLoop] at member
  | succ rounds ih =>
    simp only [unitLoop] at member
    split at member
    · next below =>
        obtain ⟨step, positive⟩ := toNat_unit_step below
        rcases List.mem_cons.mp member with rfl | later
        · exact BitVec.le_refl _
        · have above := ih _ later
          bv_omega
    · simp at member

theorem unitLoop_nodup (unitSize addr : Address) (rounds : ℕ) (iaddr : Address) :
    (unitLoop unitSize (unitUpAlign addr unitSize) rounds iaddr).Nodup := by
  induction rounds generalizing iaddr with
  | zero => simp [unitLoop]
  | succ rounds ih =>
    simp only [unitLoop]
    split
    · next below =>
        obtain ⟨step, positive⟩ := toNat_unit_step below
        refine List.nodup_cons.mpr ⟨fun member => ?_, ih _⟩
        have above := unitLoop_above unitSize addr rounds _ _ member
        bv_omega
    · simp

theorem unitsOf_nodup (unitSize addr size : Address) : (unitsOf unitSize addr size).Nodup :=
  unitLoop_nodup _ _ _ _

/-- `DEBUG_ASSERT` of the default (debug) build: a false condition ends the run. -/
def debugAssert (condition : Prop) [Decidable condition] : Option Unit :=
  if condition then some () else none

@[simp] theorem debugAssert_eq_some (condition : Prop) [Decidable condition] :
    debugAssert condition = some () ↔ condition := by
  simp [debugAssert]

theorem debugAssert_pos {condition : Prop} [Decidable condition] (holds : condition) :
    debugAssert condition = some () := if_pos holds

/-- `DEBUG_ASSERT` in either build: without `_DEBUG` it is compiled to nothing. -/
def assertIn (debug : Bool) (condition : Prop) [Decidable condition] : Option Unit :=
  if debug then debugAssert condition else some ()

@[simp] theorem assertIn_eq_some (debug : Bool) (condition : Prop) [Decidable condition] :
    assertIn debug condition = some () ↔ (debug = true → condition) := by
  cases debug <;> simp [assertIn]

theorem assertIn_pos {debug : Bool} {condition : Prop} [Decidable condition] (holds : condition) :
    assertIn debug condition = some () := (assertIn_eq_some debug condition).mpr fun _ => holds

end Maple
