import Mathlib

/-! Priority relations: `R t u` says that `t` has to wait while `u` is there. As long
as the relation has no cycle, not everybody in a group waits for another one in it. -/
namespace Priority
variable {T : Type} {R R' : T → T → Prop} {t : T}

def Acyclic (R : T → T → Prop) : Prop := ∀ t, ¬ Relation.TransGen R t t

theorem Acyclic.irrefl (acyclic : Acyclic R) (t : T) : ¬ R t t := fun edge => acyclic t (.single edge)

theorem acyclic_of_empty (none : ∀ t u, ¬ R t u) : Acyclic R := by
  intro t cycle
  obtain ⟨u, edge, _⟩ := Relation.TransGen.head'_iff.mp cycle
  exact none t u edge

/-- A thread that has lost all edges into it may get any edges to others. -/
theorem Acyclic.demote (acyclic : Acyclic R)
    (edges : ∀ u v, R' u v → v ≠ t ∧ (R u v ∨ u = t)) : Acyclic R' := by
  have avoids : ∀ {u v}, Relation.TransGen R' u v → v ≠ t := by
    intro u v path
    obtain ⟨w, _, edge⟩ := Relation.TransGen.tail'_iff.mp path
    exact (edges w v edge).1
  have old : ∀ {u v}, Relation.TransGen R' u v → u ≠ t → Relation.TransGen R u v := by
    intro u v path start
    induction path with
    | single edge => exact .single ((edges _ _ edge).2.resolve_right start)
    | tail path edge ih => exact ih.tail ((edges _ _ edge).2.resolve_right (avoids path))
  intro u cycle
  exact acyclic u (old cycle (avoids cycle))

/-- In a finite group somebody waits for nobody else. -/
theorem Acyclic.exists_free (acyclic : Acyclic R) {group : List T} (inhabited : group ≠ []) :
    ∃ t ∈ group, ∀ u ∈ group, ¬ R t u := by
  have free : ∃ t ∈ group, ∀ u ∈ group, ¬ Relation.TransGen R t u := by
    induction group with
    | nil => exact absurd rfl inhabited
    | cons a rest ih =>
      by_cases alone : rest = []
      · subst alone
        refine ⟨a, List.mem_cons_self, fun u member => ?_⟩
        rw [List.mem_singleton.mp member]
        exact acyclic a
      obtain ⟨t, member, waits⟩ := ih alone
      by_cases behind : Relation.TransGen R t a
      · refine ⟨a, List.mem_cons_self, fun u inside path => ?_⟩
        rcases List.mem_cons.mp inside with rfl | inside
        · exact acyclic _ path
        · exact waits u inside (behind.trans path)
      · refine ⟨t, List.mem_cons_of_mem a member, fun u inside => ?_⟩
        rcases List.mem_cons.mp inside with rfl | inside
        · exact behind
        · exact waits u inside
  obtain ⟨t, member, waits⟩ := free
  exact ⟨t, member, fun u inside edge => waits u inside (.single edge)⟩

end Priority
