import Maple.Core.Regions
import Maple.Race.Accesses

/-! Live regions along a trace of hooks and the lifetimes of memory units. -/
namespace Maple.Race

def sectionOps (start size : Address) : List RegionOp :=
  if start ≠ 0 then [.alloc ⟨start, size⟩] else []

/-- The allocations and releases that a hook reports. -/
def Hook.regionOps : Hook → List RegionOp
  | .imageLoad _ _ dataStart dataSize bssStart bssSize =>
    sectionOps dataStart dataSize ++ sectionOps bssStart bssSize
  | .imageUnload _ dataStart bssStart => [.free dataStart, .free bssStart]
  | .afterMalloc size addr | .afterValloc size addr | .afterRealloc size addr =>
    [.alloc ⟨addr, size⟩]
  | .afterCalloc nmemb size addr => [.alloc ⟨addr, size * nmemb⟩]
  | .beforeRealloc addr | .beforeFree addr => [.free addr]
  | _ => []

def Hook.live (live : List Region) (e : Hook) : List Region := e.regionOps.foldl RegionOp.apply live

/-- The regions that are live before position `n`. -/
def liveAt (tr : List Hook) (n : ℕ) : List Region := (tr.take n).foldl Hook.live []

theorem liveAt_succ {tr : List Hook} {n : ℕ} {e : Hook} (here : tr[n]? = some e) :
    liveAt tr (n + 1) = e.live (liveAt tr n) := by
  simp [liveAt, List.take_add_one, here, List.foldl_append]

/-- An access lies inside a live region; the address range of an image is not empty. -/
def Hook.Inside (live : List Region) : Hook → Prop
  | .beforeMemRead _ _ addr size | .beforeMemWrite _ _ addr size => ∃ r ∈ live, r.Covers addr size
  | .imageLoad lowAddr highAddr .. => lowAddr ≠ 0 ∧ highAddr ≠ 0 ∧ lowAddr < highAddr
  | .imageUnload lowAddr .. => lowAddr ≠ 0
  | _ => True

instance (live : List Region) (e : Hook) : Decidable (e.Inside live) := by
  induction e using Hook.casesOn <;> simp only [Hook.Inside]
  case beforeMemRead | beforeMemWrite => exact List.decidableBEx _ _
  all_goals infer_instance

/-- Allocated regions are disjoint, releases name them, and accesses stay inside. -/
def RegionsConform (unitSize : Address) (tr : List Hook) : Prop :=
  ∀ n e, tr[n]? = some e → AllAdmitted unitSize (liveAt tr n) e.regionOps ∧ e.Inside (liveAt tr n)

theorem regionsConform_iff (unitSize : Address) (tr : List Hook) : RegionsConform unitSize tr ↔
    ∀ n : Fin tr.length, AllAdmitted unitSize (liveAt tr n) (tr.get n).regionOps ∧
      (tr.get n).Inside (liveAt tr n) := by
  constructor
  · intro conforms n
    exact conforms n _ (List.getElem?_eq_getElem n.isLt)
  · intro conforms n e here
    obtain ⟨bound, same⟩ := List.getElem?_eq_some_iff.mp here
    exact same ▸ conforms ⟨n, bound⟩

instance (unitSize : Address) (tr : List Hook) : Decidable (RegionsConform unitSize tr) :=
  decidable_of_iff _ (regionsConform_iff unitSize tr).symm

/-- Position `n` releases a region that covers unit `x`. -/
def Frees (unitSize : Address) (tr : List Hook) (x : Address) (n : ℕ) : Prop :=
  ∃ e, tr[n]? = some e ∧ SomeFrees unitSize x (liveAt tr n) e.regionOps

/-- The positions from `lo` to before `hi` lie between two releases of the
regions of unit `x`, or the ends of the trace. -/
structure Lifetime (unitSize : Address) (tr : List Hook) (x : Address) (lo hi : ℕ) : Prop where
  bound : lo ≤ hi ∧ hi ≤ tr.length
  kept : ∀ m, lo ≤ m → m < hi → ¬ Frees unitSize tr x m
  opened : lo = 0 ∨ Frees unitSize tr x (lo - 1)
  closed : hi = tr.length ∨ Frees unitSize tr x hi

/-- Unit `x` was accessed before position `n` in the lifetime that lasts until then. -/
def Touched (unitSize : Address) (tr : List Hook) (x : Address) (n : ℕ) (k : RaceEventType)
    (t : ThreadId) (inst : InstId) : Prop :=
  ∃ i < n, (∀ m, i < m → m < n → ¬ Frees unitSize tr x m) ∧ Accesses unitSize tr k x i t inst

section
variable {unitSize : Address} {tr : List Hook} {x : Address} {n i : ℕ} {k : RaceEventType}
  {t : ThreadId} {inst : InstId}

theorem Accesses.not_frees (access : Accesses unitSize tr k x i t inst) (y : Address) :
    ¬ Frees unitSize tr y i := by
  rintro ⟨e, here, frees⟩
  obtain ⟨addr, size, there, -⟩ := access
  cases Option.some.inj (here.symm.trans there)
  cases k <;> exact frees

theorem touched_succ : Touched unitSize tr x (n + 1) k t inst ↔
    (¬ Frees unitSize tr x n ∧ Touched unitSize tr x n k t inst) ∨
      Accesses unitSize tr k x n t inst := by
  constructor
  · rintro ⟨i, below, kept, access⟩
    rcases Nat.lt_succ_iff_lt_or_eq.mp below with earlier | rfl
    · exact Or.inl ⟨kept n earlier (Nat.lt_succ_self n), i, earlier,
        fun m after before => kept m after (Nat.lt_succ_of_lt before), access⟩
    · exact Or.inr access
  · rintro (⟨still, i, earlier, kept, access⟩ | access)
    · refine ⟨i, Nat.lt_succ_of_lt earlier, fun m after before => ?_, access⟩
      rcases Nat.lt_succ_iff_lt_or_eq.mp before with before | rfl
      · exact kept m after before
      · exact still
    · exact ⟨n, Nat.lt_succ_self n, fun m after before => by omega, access⟩

/-- The last release before `n`, and the first one from there on. -/
theorem exists_lifetime (bound : n ≤ tr.length) :
    ∃ lo hi, Lifetime unitSize tr x lo hi ∧ lo ≤ n ∧ n ≤ hi := by
  classical
  have back : ∀ n, ∃ lo ≤ n, (∀ m, lo ≤ m → m < n → ¬ Frees unitSize tr x m) ∧
      (lo = 0 ∨ Frees unitSize tr x (lo - 1)) := by
    intro n
    induction n with
    | zero => exact ⟨0, Nat.le_refl _, by omega, Or.inl rfl⟩
    | succ n ih =>
      by_cases frees : Frees unitSize tr x n
      · exact ⟨n + 1, Nat.le_refl _, by omega, Or.inr frees⟩
      · obtain ⟨lo, below, kept, opened⟩ := ih
        refine ⟨lo, Nat.le_succ_of_le below, fun m after before => ?_, opened⟩
        rcases Nat.lt_succ_iff_lt_or_eq.mp before with before | rfl
        · exact kept m after before
        · exact frees
  have forth : ∀ left n, n + left = tr.length → ∃ hi, n ≤ hi ∧ hi ≤ tr.length ∧
      (∀ m, n ≤ m → m < hi → ¬ Frees unitSize tr x m) ∧
      (hi = tr.length ∨ Frees unitSize tr x hi) := by
    intro left
    induction left with
    | zero => exact fun n ends => ⟨n, Nat.le_refl _, by omega, by omega, Or.inl ends⟩
    | succ left ih =>
      intro n ends
      by_cases frees : Frees unitSize tr x n
      · exact ⟨n, Nat.le_refl _, by omega, by omega, Or.inr frees⟩
      · obtain ⟨hi, above, inside, kept, closed⟩ := ih (n + 1) (by omega)
        refine ⟨hi, by omega, inside, fun m after before => ?_, closed⟩
        rcases Nat.eq_or_lt_of_le after with rfl | after
        · exact frees
        · exact kept m after before
  obtain ⟨lo, below, kept, opened⟩ := back n
  obtain ⟨hi, above, inside, kept', closed⟩ := forth (tr.length - n) n (by omega)
  refine ⟨lo, hi, ⟨⟨below.trans above, inside⟩, fun m after before => ?_, opened, closed⟩, below, above⟩
  by_cases split : m < n
  · exact kept m after split
  · exact kept' m (by omega) before

/-- What is touched until `n` are the accesses so far of the lifetime around `n`. -/
theorem touched_iff {lo hi : ℕ} (lifetime : Lifetime unitSize tr x lo hi) (below : lo ≤ n)
    (above : n ≤ hi) : Touched unitSize tr x n k t inst ↔
      ∃ i, lo ≤ i ∧ i < n ∧ Accesses unitSize tr k x i t inst := by
  constructor
  · rintro ⟨i, before, kept, access⟩
    refine ⟨i, ?_, before, access⟩
    rcases lifetime.opened with rfl | frees
    · exact Nat.zero_le i
    · by_contra earlier
      rcases Nat.lt_or_eq_of_le (Nat.le_sub_one_of_lt (Nat.lt_of_not_le earlier)) with earlier | rfl
      · exact kept (lo - 1) earlier (by omega) frees
      · exact access.not_frees x frees
  · rintro ⟨i, after, before, access⟩
    exact ⟨i, before, fun m later earlier => lifetime.kept m (by omega) (by omega), access⟩

end
end Maple.Race
