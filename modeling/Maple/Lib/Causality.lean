import Mathlib

/-! Happens-before generated by release and acquire of channels. A trace is a
list of events, an event is named by its position, and a channel stands for
whatever carries an order: a thread carries its own program order, a mutex
carries the order from each release to the later acquisitions. -/
namespace Causality
variable {E C : Type}

/-- Which channels an event acquires from and which it releases to. -/
structure Model (E C : Type) where
  acquires : E → C → Prop
  releases : E → C → Prop

/-- The earlier event releases a channel that the later one acquires. -/
def Model.Edge (m : Model E C) (tr : List E) (i j : ℕ) : Prop :=
  i < j ∧ ∃ a b c, tr[i]? = some a ∧ tr[j]? = some b ∧ m.releases a c ∧ m.acquires b c

def Model.HB (m : Model E C) (tr : List E) : ℕ → ℕ → Prop :=
  Relation.TransGen (m.Edge tr)

/-- Event `i` is ordered before whatever acquires channel `c` at position `n`
or later. -/
def Model.Known (m : Model E C) (tr : List E) (n : ℕ) (c : C) (i : ℕ) : Prop :=
  ∃ j < n, ∃ b, tr[j]? = some b ∧ m.releases b c ∧ (i = j ∨ m.HB tr i j)

variable {m : Model E C} {tr : List E} {i j n : ℕ} {c : C} {e : E}

theorem hb_lt (ordered : m.HB tr i j) : i < j := by
  induction ordered with
  | single edge => exact edge.1
  | tail _ edge ih => exact Nat.lt_trans ih edge.1

theorem known_lt (known : m.Known tr n c i) : i < n := by
  obtain ⟨j, bound, b, _, _, rfl | ordered⟩ := known
  · exact bound
  · exact Nat.lt_trans (hb_lt ordered) bound

theorem known_mono {k : ℕ} (known : m.Known tr n c i) (later : n ≤ k) :
    m.Known tr k c i := by
  obtain ⟨j, bound, rest⟩ := known
  exact ⟨j, Nat.lt_of_lt_of_le bound later, rest⟩

@[simp] theorem not_known_zero : ¬ m.Known tr 0 c i := fun known => absurd (known_lt known) (by omega)

/-- What is ordered before an event is what its channels knew. -/
theorem hb_iff_known (here : tr[n]? = some e) :
    m.HB tr i n ↔ ∃ c, m.acquires e c ∧ m.Known tr n c i := by
  constructor
  · intro ordered
    obtain ⟨j, before, edge⟩ := Relation.TransGen.tail'_iff.mp ordered
    obtain ⟨bound, a, b, c, ha, hb, released, acquired⟩ := edge
    cases here.symm.trans hb
    refine ⟨c, acquired, j, bound, a, ha, released, ?_⟩
    rcases Relation.ReflTransGen.cases_tail before with same | ⟨k, prior, last⟩
    · exact Or.inl same.symm
    · exact Or.inr (Relation.TransGen.tail' prior last)
  · rintro ⟨c, acquired, j, bound, a, ha, released, ordered⟩
    have edge : m.Edge tr j n := ⟨bound, a, e, c, ha, here, released, acquired⟩
    rcases ordered with rfl | ordered
    · exact .single edge
    · exact .tail ordered edge

/-- One event adds itself and what it acquired to the channels it releases. -/
theorem known_succ (here : tr[n]? = some e) :
    m.Known tr (n + 1) c i ↔
      m.Known tr n c i ∨ m.releases e c ∧ (i = n ∨ ∃ d, m.acquires e d ∧ m.Known tr n d i) := by
  rw [← hb_iff_known here]
  constructor
  · rintro ⟨j, bound, b, hb, released, ordered⟩
    rcases Nat.lt_succ_iff_lt_or_eq.mp bound with earlier | rfl
    · exact Or.inl ⟨j, earlier, b, hb, released, ordered⟩
    · cases here.symm.trans hb
      exact Or.inr ⟨released, ordered⟩
  · rintro (known | ⟨released, ordered⟩)
    · exact known_mono known (Nat.le_succ n)
    · exact ⟨n, Nat.lt_succ_self n, e, here, released, ordered⟩

/-- Knowing an event means knowing everything ordered before it. -/
theorem known_of_hb (ordered : m.HB tr i j) (known : m.Known tr n c j) : m.Known tr n c i := by
  obtain ⟨k, bound, b, here, released, rfl | later⟩ := known
  · exact ⟨j, bound, b, here, released, Or.inr ordered⟩
  · exact ⟨k, bound, b, here, released, Or.inr (ordered.trans later)⟩

/-- An event that acquires what the trace already knows is ordered after it. -/
theorem hb_of_known (here : tr[j]? = some e) (acquired : m.acquires e c)
    (known : m.Known tr n c i) (later : n ≤ j) : m.HB tr i j :=
  (hb_iff_known here).mpr ⟨c, acquired, known_mono known later⟩

end Causality
