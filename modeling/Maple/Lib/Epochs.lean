import Mathlib

/-! The epoch theorem of vector clocks, free of any detector. A holder is
anything that carries a clock; each thread is one. Comparing one clock
component decides whether a stamped event is known to a holder, and this is
preserved by the few ways in which clocks are passed on. -/
namespace Epochs
variable {T H : Type} [DecidableEq T] [DecidableEq H]

/-- Clocks of all holders beside the causal knowledge they stand for. `epoch`
gives the thread and own component at which a stamped event was made. -/
structure View (T H : Type) where
  vc : H → T → ℕ
  knows : H → ℕ → Prop
  epoch : ℕ → Option (T × ℕ)
  born : T → Prop
  ended : T → Prop

/-- A live thread's own component is strictly above what anybody else has
received of it, so a later event cannot hide under a published component. -/
structure View.Exact (thr : T → H) (v : View T H) : Prop where
  exact : ∀ {i t s}, v.epoch i = some (t, s) → ∀ h, v.knows h i ↔ s ≤ v.vc h t
  ahead : ∀ {t h}, v.born t → ¬ v.ended t → h ≠ thr t → v.vc h t < v.vc (thr t) t
  positive : ∀ {t}, v.born t → 0 < v.vc (thr t) t
  unborn : ∀ {t}, ¬ v.born t → ∀ h, v.vc h t = 0
  blank : ∀ {t}, ¬ v.born t → ∀ u, v.vc (thr t) u = 0
  stamped : ∀ {i t s}, v.epoch i = some (t, s) → v.born t ∧ 0 < s ∧ s ≤ v.vc (thr t) t

namespace View
variable (thr : T → H) (v : View T H)

/-- Thread `t` makes the stamped event `n`. -/
def mark (n : ℕ) (t : T) : View T H :=
  { v with
    epoch := Function.update v.epoch n (some (t, v.vc (thr t) t))
    knows := fun h i => v.knows h i ∨ h = thr t ∧ i = n }

/-- Holder `h` takes in the clock of holder `k`. -/
def learn (h k : H) : View T H :=
  { v with
    vc := Function.update v.vc h (fun u => max (v.vc h u) (v.vc k u))
    knows := fun g i => v.knows g i ∨ g = h ∧ v.knows k i }

def tick (t : T) : View T H :=
  { v with vc := Function.update v.vc (thr t) (fun u => if u = t then v.vc (thr t) u + 1 else v.vc (thr t) u) }

def birth (t : T) : View T H :=
  { v with
    vc := Function.update v.vc (thr t) (fun u => if u = t then 1 else 0)
    born := fun u => u = t ∨ v.born u }

def finish (t : T) : View T H := { v with ended := fun u => u = t ∨ v.ended u }

/-- Thread `t` hands its clock to `h` and starts a new epoch. -/
def publish (t : T) (h : H) : View T H := (v.learn h (thr t)).tick thr t

omit [DecidableEq T] in
theorem learn_vc (h k g : H) (u : T) :
    (v.learn h k).vc g u = if g = h then max (v.vc h u) (v.vc k u) else v.vc g u := by
  by_cases target : g = h
  · subst target
    simp [learn]
  · simp [learn, target]

theorem tick_vc (t : T) (g : H) (u : T) :
    (v.tick thr t).vc g u = if g = thr t ∧ u = t then v.vc (thr t) t + 1 else v.vc g u := by
  by_cases target : g = thr t
  · subst target
    by_cases own : u = t <;> simp [tick, own]
  · simp [tick, target]

theorem birth_vc (t : T) (g : H) (u : T) :
    (v.birth thr t).vc g u = if g = thr t then (if u = t then 1 else 0) else v.vc g u := by
  by_cases target : g = thr t
  · subst target
    simp [birth]
  · simp [birth, target]

theorem publish_vc (t : T) (h g : H) (u : T) (apart : h ≠ thr t) :
    (v.publish thr t h).vc g u =
      if g = h then max (v.vc h u) (v.vc (thr t) u)
      else if g = thr t ∧ u = t then v.vc (thr t) t + 1 else v.vc g u := by
  by_cases target : g = h
  · subst target
    simp [publish, tick_vc, learn_vc, apart]
  · simp [publish, tick_vc, learn_vc, target, apart.symm]

/-- Two views that agree on clocks, lifetimes and stamped knowledge. -/
structure Agrees (v w : View T H) : Prop where
  vc : ∀ h t, w.vc h t = v.vc h t
  epoch : ∀ i, w.epoch i = v.epoch i
  knows : ∀ {i t s}, v.epoch i = some (t, s) → ∀ h, w.knows h i ↔ v.knows h i
  born : ∀ t, w.born t ↔ v.born t
  ended : ∀ t, w.ended t ↔ v.ended t
end View

namespace View.Exact
variable {thr : T → H} {v w : View T H} {n : ℕ} {t : T} {h k : H}

omit [DecidableEq T] [DecidableEq H] in
theorem congr (e : v.Exact thr) (same : v.Agrees w) : w.Exact thr where
  exact stamp h := by
    rw [same.epoch] at stamp
    rw [same.knows stamp, same.vc]
    exact e.exact stamp h
  ahead born live other := by
    rw [same.vc, same.vc]
    exact e.ahead ((same.born _).mp born) (fun ended => live ((same.ended _).mpr ended)) other
  positive born := by
    rw [same.vc]
    exact e.positive ((same.born _).mp born)
  unborn fresh h := by
    rw [same.vc]
    exact e.unborn (fun born => fresh ((same.born _).mpr born)) h
  blank fresh u := by
    rw [same.vc]
    exact e.blank (fun born => fresh ((same.born _).mpr born)) u
  stamped stamp := by
    rw [same.epoch] at stamp
    rw [same.born, same.vc]
    exact e.stamped stamp

omit [DecidableEq T] [DecidableEq H] in
theorem mark (e : v.Exact thr) (born : v.born t) (live : ¬ v.ended t)
    (unknown : ∀ h, ¬ v.knows h n) : (v.mark thr n t).Exact thr where
  exact {i u s} stamp h := by
    simp only [View.mark] at stamp ⊢
    by_cases here : i = n
    · subst here
      simp only [Function.update_self, Option.some.injEq, Prod.mk.injEq] at stamp
      obtain ⟨rfl, rfl⟩ := stamp
      constructor
      · rintro (known | ⟨rfl, _⟩)
        · exact absurd known (unknown h)
        · exact le_rfl
      · intro bound
        by_cases own : h = thr t
        · exact Or.inr ⟨own, rfl⟩
        · exact absurd (e.ahead born live own) (by omega)
    · rw [Function.update_of_ne here] at stamp
      simpa [here] using e.exact stamp h
  ahead := e.ahead
  positive := e.positive
  unborn := e.unborn
  blank := e.blank
  stamped {i u s} stamp := by
    simp only [View.mark] at stamp ⊢
    by_cases here : i = n
    · subst here
      simp only [Function.update_self, Option.some.injEq, Prod.mk.injEq] at stamp
      obtain ⟨rfl, rfl⟩ := stamp
      exact ⟨born, e.positive born, le_rfl⟩
    · rw [Function.update_of_ne here] at stamp
      exact e.stamped stamp

omit [DecidableEq T] in
/-- Only a thread that makes no more events may be taken in without a new epoch. -/
theorem learn (e : v.Exact thr) (target : ∀ t, h = thr t → v.born t)
    (source : ∀ t, k = thr t → v.ended t) : (v.learn h k).Exact thr where
  exact {i u s} stamp g := by
    rw [learn_vc]
    have old := e.exact stamp
    by_cases here : g = h
    · subst here
      simp [View.learn, old]
    · simp [View.learn, old, here]
  ahead {u g} born live other := by
    have below : ∀ f, f ≠ thr u → v.vc f u < v.vc (thr u) u := fun f hf => e.ahead born live hf
    have distinct : k ≠ thr u := fun same => live (source u same)
    have grows : v.vc (thr u) u ≤ (v.learn h k).vc (thr u) u := by
      rw [learn_vc]
      split
      · next same => exact same ▸ le_max_left _ _
      · exact le_rfl
    refine lt_of_lt_of_le ?_ grows
    rw [learn_vc]
    split
    · next same => exact max_lt (below h (same ▸ other)) (below k distinct)
    · exact below g other
  positive {u} born := by
    rw [learn_vc]
    split
    · next same => exact lt_of_lt_of_le (e.positive born) (same ▸ le_max_left _ _)
    · exact e.positive born
  unborn fresh g := by
    rw [learn_vc]
    simp [e.unborn fresh]
  blank {u} fresh x := by
    have other : thr u ≠ h := fun same => fresh (target u same.symm)
    rw [learn_vc, if_neg other]
    exact e.blank fresh x
  stamped {i u s} stamp := by
    obtain ⟨born, pos, bound⟩ := e.stamped stamp
    refine ⟨born, pos, bound.trans ?_⟩
    rw [learn_vc]
    split
    · next same => exact same ▸ le_max_left _ _
    · exact le_rfl

theorem tick (inj : Function.Injective thr) (e : v.Exact thr) (born : v.born t) :
    (v.tick thr t).Exact thr where
  exact {i u s} stamp g := by
    have old := e.exact stamp g
    obtain ⟨_, _, bound⟩ := e.stamped stamp
    rw [tick_vc]
    split
    · next same =>
        obtain ⟨rfl, rfl⟩ := same
        simp only [View.tick, old]
        omega
    · exact old
  ahead {u g} bornU live other := by
    have below := e.ahead bornU live other
    rw [tick_vc, tick_vc]
    split
    · next same => exact absurd (same.2 ▸ same.1) other
    · split
      · next same =>
          obtain ⟨_, rfl⟩ := same
          omega
      · exact below
  positive {u} bornU := by
    have := e.positive bornU
    rw [tick_vc]
    split <;> omega
  unborn {u} fresh g := by
    have other : ¬ (g = thr t ∧ u = t) := fun same => fresh (same.2 ▸ born)
    rw [tick_vc, if_neg other]
    exact e.unborn fresh g
  blank {u} fresh x := by
    have other : thr u ≠ thr t := fun same => fresh (inj same ▸ born)
    rw [tick_vc, if_neg (fun same => other same.1)]
    exact e.blank fresh x
  stamped {i u s} stamp := by
    obtain ⟨bornU, pos, bound⟩ := e.stamped stamp
    refine ⟨bornU, pos, bound.trans ?_⟩
    rw [tick_vc]
    split
    · next same =>
        obtain ⟨_, rfl⟩ := same
        exact Nat.le_succ _
    · exact le_rfl

theorem birth (inj : Function.Injective thr) (e : v.Exact thr) (fresh : ¬ v.born t) :
    (v.birth thr t).Exact thr := by
  have other : ∀ {u}, v.born u → u ≠ t := fun born same => fresh (same ▸ born)
  refine ⟨?_, ?_, ?_, ?_, ?_, ?_⟩
  · intro i u s stamp g
    obtain ⟨born, pos, _⟩ := e.stamped stamp
    rw [birth_vc]
    split
    · next same =>
        have none := e.exact stamp g
        rw [same, e.blank fresh] at none
        simp only [View.birth, same, none, if_neg (other born)]
    · exact e.exact stamp g
  · intro u g born live elsewhere
    rcases born with rfl | born
    · rw [birth_vc, birth_vc, if_neg elsewhere, if_pos rfl, if_pos rfl, e.unborn fresh]
      omega
    · have apart : thr u ≠ thr t := fun same => other born (inj same)
      have below := e.ahead born live elsewhere
      rw [birth_vc, birth_vc, if_neg apart]
      split
      · rw [if_neg (other born)]
        omega
      · exact below
  · intro u born
    rw [birth_vc]
    split
    · next same => simp [inj same]
    · next apart =>
        rcases born with rfl | born
        · exact absurd rfl apart
        · exact e.positive born
  · intro u notBorn g
    have parts := not_or.mp notBorn
    rw [birth_vc, if_neg parts.1, e.unborn parts.2]
    simp
  · intro u notBorn x
    have parts := not_or.mp notBorn
    rw [birth_vc, if_neg (fun same => parts.1 (inj same))]
    exact e.blank parts.2 x
  · intro i u s stamp
    obtain ⟨born, pos, bound⟩ := e.stamped stamp
    refine ⟨Or.inr born, pos, ?_⟩
    rw [birth_vc, if_neg (fun same => other born (inj same))]
    exact bound

omit [DecidableEq T] [DecidableEq H] in
theorem finish (e : v.Exact thr) : (v.finish t).Exact thr :=
  { e with ahead := fun born live other => e.ahead born (fun ended => live (Or.inr ended)) other }

/-- Publishing is safe because the new epoch starts right behind it. -/
theorem publish (inj : Function.Injective thr) (e : v.Exact thr) (born : v.born t)
    (apart : h ≠ thr t) (target : ∀ u, h = thr u → v.born u) : (v.publish thr t h).Exact thr := by
  -- finish the publisher for the moment of the copy, then revive it by the tick
  have copied := (e.finish (t := t)).learn (h := h) (k := thr t) target
    (fun u same => Or.inl (inj same).symm)
  have ticked := copied.tick inj born
  refine { ticked with ahead := ?_ }
  intro u g bornU live other
  by_cases own : u = t
  · subst own
    have bound : (v.learn h (thr u)).vc g u ≤ v.vc (thr u) u := by
      rw [learn_vc]
      split
      · next same => exact max_le (e.ahead bornU live (same ▸ other)).le le_rfl
      · exact (e.ahead bornU live other).le
    have self : (v.learn h (thr u)).vc (thr u) u = v.vc (thr u) u := by
      rw [learn_vc, if_neg apart.symm]
    simp only [View.publish]
    rw [tick_vc, tick_vc, if_neg (fun same => other same.1), if_pos ⟨rfl, rfl⟩, self]
    omega
  · exact ticked.ahead bornU (fun ended => ended.elim own live) other

end View.Exact
end Epochs
