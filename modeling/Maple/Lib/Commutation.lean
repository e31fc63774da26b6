import Mathlib

/-! Sequences up to the exchange of adjacent independent elements, and machines
that stamp the elements of a sequence. The stamps form a multiset; it determines
the sequence up to exchanges if it shows which elements can come first. -/
namespace Commutation
variable {A B S : Type} {indep : A → A → Prop} {u v w : List A} {a : A}

/-- Exchange of two adjacent independent elements. -/
inductive Swap (indep : A → A → Prop) : List A → List A → Prop
  | adjacent (x : List A) {a b : A} (y : List A) (apart : indep a b) :
      Swap indep (x ++ a :: b :: y) (x ++ b :: a :: y)

def Swaps (indep : A → A → Prop) : List A → List A → Prop := Relation.ReflTransGen (Swap indep)

theorem Swap.cons (a : A) (swap : Swap indep u v) : Swap indep (a :: u) (a :: v) := by
  cases swap with
  | adjacent x y apart => exact .adjacent (a :: x) y apart

theorem Swap.symm (symmetric : ∀ a b, indep a b → indep b a) (swap : Swap indep u v) : Swap indep v u := by
  cases swap with
  | adjacent x y apart => exact .adjacent x y (symmetric _ _ apart)

theorem Swaps.cons (a : A) (swaps : Swaps indep u v) : Swaps indep (a :: u) (a :: v) := by
  induction swaps with
  | refl => exact .refl
  | tail _ swap ih => exact .tail ih (swap.cons a)

theorem Swaps.trans (first : Swaps indep u v) (second : Swaps indep v w) : Swaps indep u w :=
  Relation.ReflTransGen.trans first second

theorem Swaps.symm (symmetric : ∀ a b, indep a b → indep b a) (swaps : Swaps indep u v) :
    Swaps indep v u := by
  induction swaps with
  | refl => exact .refl
  | tail _ swap ih => exact .head (swap.symm symmetric) ih

/-- An element moves to the front across elements that are independent of it. -/
theorem Swaps.toFront {x y : List A} (apart : ∀ b ∈ x, indep b a) :
    Swaps indep (x ++ a :: y) (a :: (x ++ y)) := by
  induction x with
  | nil => exact .refl
  | cons b x ih =>
    obtain ⟨first, others⟩ := List.forall_mem_cons.mp apart
    exact ((ih others).cons b).trans (.single (.adjacent [] (x ++ y) first))

section Stamps
variable (next : S → A → S) (stamp : S → A → B)

/-- Each element with what the machine says of it. -/
def stamps : S → List A → List B
  | _, [] => []
  | s, a :: rest => stamp s a :: stamps (next s a) rest

/-- Independent elements do not influence each other's stamps. -/
def Commutes (indep : A → A → Prop) : Prop := ∀ s a b, indep a b →
  stamp (next s a) b = stamp s b ∧ stamp (next s b) a = stamp s a ∧ next (next s a) b = next (next s b) a

/-- From the stamps of a sequence that starts with `a`, any sequence with these
stamps has an `a` that can be moved to its front. -/
def Exposes (indep : A → A → Prop) : Prop := ∀ s a u v,
  (stamps next stamp s (a :: u)).Perm (stamps next stamp s v) →
  ∃ x y, v = x ++ a :: y ∧ ∀ b ∈ x, indep b a

variable {next stamp}

theorem stamps_append (s : S) (u v : List A) :
    stamps next stamp s (u ++ v) = stamps next stamp s u ++ stamps next stamp (u.foldl next s) v := by
  induction u generalizing s with
  | nil => rfl
  | cons a u ih => simp [stamps, ih]

theorem mem_stamps {s : S} {b : B} (member : b ∈ stamps next stamp s v) :
    ∃ x a y, v = x ++ a :: y ∧ b = stamp (x.foldl next s) a := by
  induction v generalizing s with
  | nil => exact nomatch member
  | cons a v ih =>
    rcases List.mem_cons.mp member with rfl | later
    · exact ⟨[], a, v, rfl, rfl⟩
    · obtain ⟨x, c, y, rfl, same⟩ := ih later
      exact ⟨a :: x, c, y, rfl, same⟩

theorem stamp_mem (s : S) (x : List A) (a : A) (y : List A) :
    stamp (x.foldl next s) a ∈ stamps next stamp s (x ++ a :: y) := by
  simp [stamps_append, stamps]

theorem Swaps.stamps_perm (commutes : Commutes next stamp indep) (swaps : Swaps indep u v) (s : S) :
    (stamps next stamp s u).Perm (stamps next stamp s v) := by
  induction swaps with
  | refl => exact .refl _
  | tail _ swap ih =>
    refine ih.trans ?_
    cases swap with
    | @adjacent x a b y apart =>
      obtain ⟨second, first, meet⟩ := commutes (x.foldl next s) a b apart
      simp only [stamps_append, stamps, second, first, meet]
      exact List.Perm.append_left _ (.swap ..)

theorem swaps_of_stamps_perm (symmetric : ∀ a b, indep a b → indep b a)
    (commutes : Commutes next stamp indep) (exposes : Exposes next stamp indep) (s : S)
    (perm : (stamps next stamp s u).Perm (stamps next stamp s v)) : Swaps indep u v := by
  induction u generalizing v s with
  | nil =>
    cases v with
    | nil => exact .refl
    | cons b v => exact absurd perm.symm.eq_nil nofun
  | cons a u ih =>
    obtain ⟨x, y, rfl, apart⟩ := exposes s a u v perm
    have front : Swaps indep (x ++ a :: y) (a :: (x ++ y)) := .toFront apart
    have rest := perm.trans (front.stamps_perm commutes s)
    simp only [stamps, List.perm_cons] at rest
    exact ((ih (next s a) rest).cons a).trans (front.symm symmetric)

/-- Stamps that commute and expose characterise sequences up to exchanges. -/
theorem stamps_perm_iff (symmetric : ∀ a b, indep a b → indep b a) (commutes : Commutes next stamp indep)
    (exposes : Exposes next stamp indep) (s : S) :
    (stamps next stamp s u).Perm (stamps next stamp s v) ↔ Swaps indep u v :=
  ⟨swaps_of_stamps_perm symmetric commutes exposes s, fun swaps => swaps.stamps_perm commutes s⟩

end Stamps
end Commutation
