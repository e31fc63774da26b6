import Maple.Core.VectorClock

/-! Vector clocks with positive entries: `HappensBefore` is the order of their components, `Equal` its
equality, and `Join` takes suprema. -/
namespace Maple.VectorClock
variable {a b c : VectorClock} {t : ThreadId}

/-- No stored entry is zero, as a missing one reads. -/
def Positive (vc : VectorClock) : Prop := ∀ (t : ThreadId) (clk : ℕ), vc.map[t]? = some clk → 0 < clk

theorem positive_empty : Positive {} := fun t clk found => by simp at found

theorem Positive.increment (positive : a.Positive) (t : ThreadId) : (a.increment t).Positive := by
  intro u clk found
  unfold VectorClock.increment at found
  split at found <;> rw [getElem?_insert_thread] at found <;> split at found
  · cases found
    exact Nat.one_pos
  · exact positive u clk found
  · cases found
    exact Nat.succ_pos _
  · exact positive u clk found

theorem positive_foldl_joinEntry {entries : List (ThreadId × ℕ)} {map : OrdMap ThreadId ℕ}
    (positive : Positive ⟨map⟩) (all : ∀ e ∈ entries, 0 < e.2) : Positive ⟨entries.foldl joinEntry map⟩ := by
  induction entries generalizing map with
  | nil => exact positive
  | cons e rest ih =>
    obtain ⟨here, all⟩ := List.forall_mem_cons.mp all
    refine ih (fun u clk found => ?_) all
    dsimp only [joinEntry] at found
    split at found <;> rw [getElem?_insert_thread] at found <;> split at found
    · cases found
      exact here
    · exact positive u clk found
    · cases found
      exact Nat.lt_of_lt_of_le here (Nat.le_max_left _ _)
    · exact positive u clk found

theorem Positive.join (left : a.Positive) (right : b.Positive) : (a.join b).Positive :=
  positive_foldl_joinEntry left fun e member => right e.1 e.2 (mem_toList.mp member)

/-- `HappensBefore` is an order, of which `Equal` is the equality. -/
theorem equal_iff_happensBefore : a.equal b = true ↔ a.happensBefore b = true ∧ b.happensBefore a = true := by
  rw [equal_iff]
  constructor
  · rintro rfl
    exact ⟨a.happensBefore_refl, a.happensBefore_refl⟩
  · rintro ⟨below, above⟩
    exact happensBefore_antisymm below above

theorem happensBefore_join_left (left : a.Positive) : a.happensBefore (a.join b) = true := by
  rw [happensBefore_iff a _ left]
  intro u
  rw [getClock_join]
  exact Nat.le_max_left _ _

theorem happensBefore_join_right (right : b.Positive) : b.happensBefore (a.join b) = true := by
  rw [happensBefore_iff b _ right]
  intro u
  rw [getClock_join]
  exact Nat.le_max_right _ _

theorem join_happensBefore (left : a.Positive) (right : b.Positive) (below : a.happensBefore c = true)
    (below' : b.happensBefore c = true) : (a.join b).happensBefore c = true := by
  rw [happensBefore_iff a c left] at below
  rw [happensBefore_iff b c right] at below'
  rw [happensBefore_iff _ c (left.join right)]
  intro u
  rw [getClock_join]
  exact Nat.max_le.mpr ⟨below u, below' u⟩

end Maple.VectorClock
