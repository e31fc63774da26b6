import Maple.Core.ClockLattice

/-! `VectorClock` with the `timestamp_t` of the source: entries are 64-bit words, so `it->second++`
in `Increment` wraps around. Below the last timestamp every operation is that of the clocks over
naturals, and clocks with positive entries are a join semilattice. -/
namespace Maple

/-- A vector clock whose entries fit into `timestamp_t`. -/
@[ext] structure WordClock extends VectorClock where
  fits : ∀ t, toVectorClock.getClock t < 2 ^ 64

namespace WordClock
variable {a b c : WordClock} {t u : ThreadId}

/-- `INVALID_TIMESTAMP`, the largest value of the type. -/
def lastTimestamp : ℕ := 2 ^ 64 - 1

def setClock (vc : WordClock) (thdId : ThreadId) (clk : Fin (2 ^ 64)) : WordClock where
  toVectorClock := vc.toVectorClock.setClock thdId clk
  fits u := by
    rw [VectorClock.getClock_setClock]
    split
    · exact clk.isLt
    · exact vc.fits u

/-- The map of `Increment`, whose `it->second++` is taken modulo the word. -/
def incrementMap (map : OrdMap ThreadId ℕ) (thdId : ThreadId) : OrdMap ThreadId ℕ :=
  match map[thdId]? with
  | none => map.insert thdId 1
  | some clk => map.insert thdId ((clk + 1) % 2 ^ 64)

theorem getClock_incrementMap (vc : VectorClock) (t u : ThreadId) :
    (⟨incrementMap vc.map t⟩ : VectorClock).getClock u =
      if t = u then (vc.getClock t + 1) % 2 ^ 64 else vc.getClock u := by
  unfold incrementMap VectorClock.getClock
  split
  · next missing =>
    simp only [getElem?_insert_thread, missing]
    split <;> rfl
  · next clk found =>
    simp only [getElem?_insert_thread, found]
    split <;> rfl

def increment (vc : WordClock) (thdId : ThreadId) : WordClock where
  map := incrementMap vc.map thdId
  fits u := by
    rw [getClock_incrementMap]
    split
    · exact Nat.mod_lt _ (Nat.two_pow_pos 64)
    · exact vc.fits u

def join (vc other : WordClock) : WordClock where
  toVectorClock := vc.toVectorClock.join other.toVectorClock
  fits u := by
    rw [VectorClock.getClock_join]
    exact Nat.max_lt.mpr ⟨vc.fits u, other.fits u⟩

theorem getClock_increment (vc : WordClock) (t u : ThreadId) : (vc.increment t).getClock u =
    if t = u then (vc.getClock t + 1) % 2 ^ 64 else vc.getClock u :=
  getClock_incrementMap vc.toVectorClock t u

/-- Away from the last timestamp `Increment` is the successor of one entry. -/
theorem increment_eq (room : a.getClock t ≠ lastTimestamp) :
    (a.increment t).toVectorClock = a.toVectorClock.increment t := by
  have below : a.getClock t + 1 < 2 ^ 64 := by
    have := a.fits t
    unfold lastTimestamp at room
    omega
  simp only [increment, incrementMap, VectorClock.increment]
  cases found : a.map[t]? with
  | none => rfl
  | some clk =>
    simp only [VectorClock.getClock, found, Option.getD_some] at below
    simp only [Nat.mod_eq_of_lt below]

/-- `Increment` makes the entry larger unless it holds the last timestamp, which becomes zero. -/
theorem lt_increment_iff (vc : WordClock) (t : ThreadId) :
    vc.getClock t < (vc.increment t).getClock t ↔ vc.getClock t ≠ lastTimestamp := by
  have bound := vc.fits t
  rw [getClock_increment, if_pos rfl]
  unfold lastTimestamp
  by_cases last : vc.getClock t = 2 ^ 64 - 1
  · simp [last]
  · rw [Nat.mod_eq_of_lt (by omega)]
    exact iff_of_true (Nat.lt_succ_self _) last

theorem positive_increment (positive : a.Positive) (room : a.getClock t ≠ lastTimestamp) :
    (a.increment t).Positive := by
  unfold VectorClock.Positive
  rw [increment_eq room]
  exact VectorClock.Positive.increment positive t

/-- The clocks that the comparisons order: no stored entry is zero. -/
abbrev Clock := {vc : WordClock // vc.Positive}

instance clockOrder : PartialOrder Clock where
  le a b := a.1.happensBefore b.1.toVectorClock = true
  le_refl a := a.1.happensBefore_refl
  le_trans _ _ _ := VectorClock.happensBefore_trans
  le_antisymm _ _ below above :=
    Subtype.ext (WordClock.ext (congrArg VectorClock.map (VectorClock.happensBefore_antisymm below above)))

instance clockLattice : SemilatticeSup Clock where
  sup a b := ⟨a.1.join b.1, a.2.join b.2⟩
  le_sup_left a _ := VectorClock.happensBefore_join_left a.2
  le_sup_right _ b := VectorClock.happensBefore_join_right b.2
  sup_le a b _ := VectorClock.join_happensBefore a.2 b.2

instance clockBot : OrderBot Clock where
  bot := ⟨⟨{}, fun t => by simp⟩, VectorClock.positive_empty⟩
  bot_le a := (VectorClock.happensBefore_iff _ _ VectorClock.positive_empty).mpr fun u => by
    rw [VectorClock.getClock_empty]
    exact Nat.zero_le _

/-- The comparisons are those of the components, `Join` is the least upper bound, and `Increment`
makes one component larger as long as it is not at the last timestamp. -/
theorem comparison_semilattice (left : a.Positive) (right : b.Positive) (t : ThreadId) :
    (a.happensBefore b.toVectorClock = true ↔ ∀ u, a.getClock u ≤ b.getClock u) ∧
      (a.happensAfter b.toVectorClock = true ↔ b.happensBefore a.toVectorClock = true) ∧
      (a.equal b.toVectorClock = true ↔
        a.happensBefore b.toVectorClock = true ∧ b.happensBefore a.toVectorClock = true) ∧
      IsLUB {⟨a, left⟩, ⟨b, right⟩} (⟨a.join b, left.join right⟩ : Clock) ∧
      (a.getClock t < lastTimestamp →
        (a.increment t).Positive ∧ a.getClock t < (a.increment t).getClock t) ∧
      ∀ u, u ≠ t → (a.increment t).getClock u = a.getClock u := by
  refine ⟨VectorClock.happensBefore_iff _ _ left, ?_, VectorClock.equal_iff_happensBefore, isLUB_pair, ?_, ?_⟩
  · rw [VectorClock.happensAfter_eq]
  · intro room
    exact ⟨positive_increment left room.ne, (lt_increment_iff a t).mpr room.ne⟩
  · intro u other
    rw [getClock_increment, if_neg (Ne.symm other)]

/-- The first clocks of two threads are concurrent. -/
theorem comparison_semilattice_concurrent :
    let first : WordClock := (⊥ : Clock).1.increment 1
    let second : WordClock := (⊥ : Clock).1.increment 2
    (¬∀ u, first.getClock u ≤ second.getClock u) ∧ (first.increment 1).getClock 1 = 2 ∧
      first.getClock 1 < (first.increment 1).getClock 1 ∧
      ∃ left right, IsLUB {⟨first, left⟩, ⟨second, right⟩} (⟨first.join second, left.join right⟩ : Clock) := by
  intro first second
  have left : first.Positive := positive_increment VectorClock.positive_empty (by decide +kernel)
  have right : second.Positive := positive_increment VectorClock.positive_empty (by decide +kernel)
  obtain ⟨before, -, -, least, grows, -⟩ := comparison_semilattice left right 1
  refine ⟨fun components => ?_, by decide +kernel, (grows (by decide +kernel)).2, left, right, least⟩
  exact absurd (before.mpr components) (by decide +kernel)

/-- A clock at the last timestamp of thread 1, as `SetClock` builds it. -/
def lastClock : WordClock := (⊥ : Clock).1.setClock 1 (Fin.last _)

/-- `Increment` makes that entry zero. -/
theorem increment_wraps : lastClock.Positive ∧ lastClock.getClock 1 = lastTimestamp ∧
    (lastClock.increment 1).getClock 1 = 0 ∧ ¬lastClock.getClock 1 < (lastClock.increment 1).getClock 1 := by
  have stored : lastClock.getClock 1 = lastTimestamp := by
    simp [lastClock, setClock, lastTimestamp]
  refine ⟨?_, stored, ?_, ?_⟩
  · intro t clk found
    simp only [lastClock, setClock, VectorClock.setClock, getElem?_insert_thread] at found
    split at found
    · cases found
      decide
    · exact VectorClock.positive_empty t clk found
  · rw [getClock_increment, if_pos rfl, stored]
    decide
  · rw [lt_increment_iff]
    exact not_not_intro stored

end WordClock
end Maple
