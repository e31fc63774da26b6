import Mathlib

/-! Doubly linked lists with iterators. Nodes are inserted at the end only, so that
an iterator is the number of insertions before its own; erasing one leaves the
iterators to all other nodes valid. -/

structure NodeList (α : Type) where
  nodes : List (ℕ × α) := []
  inserted : ℕ := 0
  ordered : (nodes.map Prod.fst).Pairwise (· < ·) := by simp
  below : ∀ it ∈ nodes.map Prod.fst, it < inserted := by simp

namespace NodeList
variable {α : Type}

def iters (l : NodeList α) : List ℕ := l.nodes.map Prod.fst

def size (l : NodeList α) : ℕ := l.nodes.length

def back (l : NodeList α) : Option α := l.nodes.getLast?.map Prod.snd

/-- An iterator to an erased node must not be dereferenced or erased. -/
def deref (l : NodeList α) (it : ℕ) : Option α := l.nodes.lookup it

/-- The list without some nodes. -/
def restrict (l : NodeList α) (keep : ℕ → Bool) : NodeList α where
  nodes := l.nodes.filter fun node => keep node.1
  inserted := l.inserted
  ordered := l.ordered.sublist (List.filter_sublist.map _)
  below it member := l.below it ((List.filter_sublist.map _).subset member)

def erase (l : NodeList α) (it : ℕ) : Option (NodeList α) :=
  if it ∈ l.iters then some (l.restrict (· ≠ it)) else none

def eraseAll (l : NodeList α) (its : List ℕ) : Option (NodeList α) := its.foldlM erase l

def pushBack (l : NodeList α) (a : α) : NodeList α where
  nodes := l.nodes ++ [(l.inserted, a)]
  inserted := l.inserted + 1
  ordered := by
    rw [List.map_append, List.pairwise_append]
    refine ⟨l.ordered, List.pairwise_singleton _ _, fun it member other same => ?_⟩
    rw [List.mem_singleton.mp same]
    exact l.below it member
  below := by
    intro it member
    rw [List.map_append, List.mem_append] at member
    rcases member with member | same
    · exact Nat.lt_succ_of_lt (l.below it member)
    · rw [List.mem_singleton.mp same]
      exact Nat.lt_succ_self _

def popFront (l : NodeList α) : NodeList α where
  nodes := l.nodes.tail
  inserted := l.inserted
  ordered := by
    rw [List.map_tail]
    exact l.ordered.sublist (List.tail_sublist _)
  below it member := l.below it (by
    rw [List.map_tail] at member
    exact List.mem_of_mem_tail member)

variable {l rest : NodeList α} {it : ℕ} {its : List ℕ} {a b : α}

theorem nodup_iters (l : NodeList α) : l.iters.Nodup := l.ordered.imp Nat.ne_of_lt

theorem length_iters (l : NodeList α) : l.iters.length = l.size := List.length_map _

theorem deref_iff : l.deref it = some a ↔ (it, a) ∈ l.nodes := by
  have apart : l.nodes.Pairwise fun node other => node.1 ≠ other.1 :=
    (List.pairwise_map.mp l.ordered).imp Nat.ne_of_lt
  unfold deref
  generalize l.nodes = nodes at apart
  induction nodes with
  | nil => simp
  | cons node others ih =>
    obtain ⟨first, apart⟩ := List.pairwise_cons.mp apart
    rw [List.lookup_cons, List.mem_cons]
    by_cases same : it = node.1
    · subst same
      simp only [beq_self_eq_true, Option.some.injEq]
      constructor
      · rintro rfl
        exact Or.inl rfl
      · rintro (same | member)
        · exact (congrArg Prod.snd same).symm
        · exact absurd rfl (first (node.1, a) member)
    · rw [beq_false_of_ne same]
      refine (ih apart).trans ⟨Or.inr, fun either => either.resolve_left ?_⟩
      rintro rfl
      exact same rfl

theorem mem_iters : it ∈ l.iters ↔ ∃ a, l.deref it = some a := by
  simp only [iters, List.mem_map, deref_iff, Prod.exists]
  exact ⟨fun ⟨_, a, member, same⟩ => ⟨a, same ▸ member⟩, fun ⟨a, member⟩ => ⟨it, a, member, rfl⟩⟩

@[simp] theorem mem_iters_restrict (keep : ℕ → Bool) : it ∈ (l.restrict keep).iters ↔ it ∈ l.iters ∧ keep it = true := by
  simp only [iters, restrict, List.mem_map, List.mem_filter]
  constructor
  · rintro ⟨node, ⟨member, kept⟩, rfl⟩
    exact ⟨⟨node, member, rfl⟩, kept⟩
  · rintro ⟨⟨node, member, rfl⟩, kept⟩
    exact ⟨node, ⟨member, kept⟩, rfl⟩

theorem deref_restrict (keep : ℕ → Bool) :
    (l.restrict keep).deref it = some a ↔ l.deref it = some a ∧ keep it = true := by
  simp only [deref_iff, restrict, List.mem_filter]

theorem deref_pushBack : (l.pushBack a).deref it = some b ↔ l.deref it = some b ∨ it = l.inserted ∧ b = a := by
  simp only [deref_iff, pushBack, List.mem_append, List.mem_singleton, Prod.mk.injEq]

@[simp] theorem size_pushBack : (l.pushBack a).size = l.size + 1 := by simp [size, pushBack]

@[simp] theorem iters_popFront : l.popFront.iters = l.iters.tail := List.map_tail

/-- Distinct iterators to nodes of the list can be erased one after the other. -/
theorem eraseAll_eq (live : ∀ it ∈ its, it ∈ l.iters) (distinct : its.Nodup) :
    l.eraseAll its = some (l.restrict (· ∉ its)) := by
  induction its generalizing l with
  | nil => simp [eraseAll, restrict]
  | cons it others ih =>
    obtain ⟨first, live⟩ := List.forall_mem_cons.mp live
    obtain ⟨absent, distinct⟩ := List.nodup_cons.mp distinct
    have erased : l.erase it = some (l.restrict (· ≠ it)) := if_pos first
    have later := ih (l := l.restrict (· ≠ it)) (fun other member => by
      rw [mem_iters_restrict, decide_eq_true_eq]
      refine ⟨live other member, ?_⟩
      rintro rfl
      exact absent member) distinct
    simp only [eraseAll, List.foldlM_cons, erased, Option.bind_eq_bind, Option.bind_some] at later ⊢
    rw [later]
    simp only [restrict, List.filter_filter, List.mem_cons, not_or, Bool.decide_and, Bool.and_comm]

/-- Each of them removes one node. -/
theorem size_restrict (live : ∀ it ∈ its, it ∈ l.iters) (distinct : its.Nodup) :
    (l.restrict (· ∉ its)).size + its.length = l.size := by
  have split : (l.iters.filter (· ∉ its)).length + (l.iters.filter (· ∈ its)).length = l.iters.length := by
    rw [Nat.add_comm, l.iters.length_eq_length_filter_add (· ∈ its)]
    simp only [decide_not]
  have gone : (l.iters.filter (· ∈ its)).Perm its := by
    rw [List.perm_ext_iff_of_nodup (l.nodup_iters.filter _) distinct]
    intro it
    rw [List.mem_filter, decide_eq_true_eq]
    exact ⟨And.right, fun member => ⟨live it member, member⟩⟩
  have kept : (l.restrict (· ∉ its)).iters = l.iters.filter (· ∉ its) := by
    simp only [iters, restrict, List.filter_map]
    rfl
  rw [← length_iters, ← length_iters, ← split, kept, gone.length_eq]

end NodeList
