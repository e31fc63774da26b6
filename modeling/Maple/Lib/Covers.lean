import Mathlib

/-! The cover relation of several chains in one preorder. For an element of one chain the
loop takes the latest earlier element of every other chain, drops those below another one and
those below the element before it in its own chain; what remains are its immediate
predecessors. -/
namespace Covers
variable {K A : Type} [DecidableEq K] (before : A → A → Bool)

/-- Elements named by their chain. -/
abbrev Chains (K A : Type) := List (K × List A)

/-- The last element of a prefix that is earlier. -/
def latest (y : A) (chain : List A) : Option A := (chain.takeWhile (before · y)).getLast?

def candidates (chains : Chains K A) (k : K) (y : A) : List (K × A) :=
  chains.filterMap fun chain => if chain.1 = k then none else (latest before y chain.2).map (chain.1, ·)

/-- A chain has one candidate, so that its name tells candidates apart. -/
def maximal (cands : List (K × A)) : List (K × A) :=
  cands.filter fun x => !cands.any fun other => x.1 ≠ other.1 && before x.2 other.2

def immediate (chains : Chains K A) (k : K) (prev : Option A) (y : A) : List (K × A) :=
  (maximal before (candidates before chains k y)).filter fun x => !prev.any (before x.2)

/-- Each element of a chain with the one before it. -/
def withPrev : Option A → List A → List (Option A × A)
  | _, [] => []
  | prev, y :: rest => (prev, y) :: withPrev (some y) rest

def considered (chains : Chains K A) : List ((K × A) × (K × A)) :=
  chains.flatMap fun chain =>
    (withPrev none chain.2).flatMap fun curr => (immediate before chains chain.1 curr.1 curr.2).map (·, (chain.1, curr.2))

/-- An element of a family of chains. -/
def Element (chains : Chains K A) (x : K × A) : Prop := ∃ chain ∈ chains, chain.1 = x.1 ∧ x.2 ∈ chain.2

/-- Nothing lies between the two. -/
structure Cover (chains : Chains K A) (x y : K × A) : Prop where
  source : Element chains x
  target : Element chains y
  apart : x.1 ≠ y.1
  earlier : before x.2 y.2 = true
  none_between : ∀ z, Element chains z → z ≠ x → z ≠ y → ¬(before x.2 z.2 = true ∧ before z.2 y.2 = true)

/-- The chains of a preorder, each strictly increasing. -/
structure Ordered (chains : Chains K A) : Prop where
  trans : ∀ x y z, before x y = true → before y z = true → before x z = true
  distinct : chains.Pairwise fun chain other => chain.1 ≠ other.1
  increasing : ∀ chain ∈ chains, chain.2.Pairwise fun x y => before x y = true ∧ before y x = false

variable {before} {chains : Chains K A} {x y : A} {k : K}

section Chain
variable {chain : List A}

theorem eq_of_increasing (increasing : chain.Pairwise fun x y => before x y = true ∧ before y x = false)
    (x_here : x ∈ chain) (y_here : y ∈ chain) (below : before x y = true) (above : before y x = true) : x = y := by
  induction chain with
  | nil => exact nomatch x_here
  | cons first rest ih =>
    obtain ⟨behind, increasing⟩ := List.pairwise_cons.mp increasing
    rcases List.mem_cons.mp x_here with rfl | x_rest
    · rcases List.mem_cons.mp y_here with rfl | y_rest
      · rfl
      · exact nomatch above.symm.trans (behind y y_rest).2
    · rcases List.mem_cons.mp y_here with rfl | y_rest
      · exact nomatch below.symm.trans (behind x x_rest).2
      · exact ih increasing x_rest y_rest

theorem total_of_increasing (increasing : chain.Pairwise fun x y => before x y = true ∧ before y x = false)
    (x_here : x ∈ chain) (y_here : y ∈ chain) : x = y ∨ before x y = true ∨ before y x = true := by
  induction chain with
  | nil => exact nomatch x_here
  | cons first rest ih =>
    obtain ⟨behind, increasing⟩ := List.pairwise_cons.mp increasing
    rcases List.mem_cons.mp x_here with rfl | x_rest
    · rcases List.mem_cons.mp y_here with rfl | y_rest
      · exact Or.inl rfl
      · exact Or.inr (Or.inl (behind y y_rest).1)
    · rcases List.mem_cons.mp y_here with rfl | y_rest
      · exact Or.inr (Or.inr (behind x x_rest).1)
      · exact ih increasing x_rest y_rest

theorem mem_takeWhile_of_increasing (trans : ∀ x y z, before x y = true → before y z = true → before x z = true)
    (increasing : chain.Pairwise fun x y => before x y = true ∧ before y x = false) :
    x ∈ chain.takeWhile (before · y) ↔ x ∈ chain ∧ before x y = true := by
  induction chain with
  | nil => simp
  | cons first rest ih =>
    obtain ⟨behind, increasing⟩ := List.pairwise_cons.mp increasing
    rw [List.takeWhile_cons]
    split
    · next earlier =>
      rw [List.mem_cons, List.mem_cons, ih increasing]
      constructor
      · rintro (rfl | ⟨member, before⟩)
        · exact ⟨Or.inl rfl, earlier⟩
        · exact ⟨Or.inr member, before⟩
      · rintro ⟨rfl | member, before⟩
        · exact Or.inl rfl
        · exact Or.inr ⟨member, before⟩
    · next later =>
      refine iff_of_false List.not_mem_nil ?_
      rintro ⟨member, earlier⟩
      rcases List.mem_cons.mp member with rfl | member
      · exact later earlier
      · exact later (trans _ _ _ (behind x member).1 earlier)

/-- The last element of an increasing list is above the others. -/
theorem before_getLast (increasing : chain.Pairwise fun x y => before x y = true ∧ before y x = false)
    (last : chain.getLast? = some x) {z : A} (here : z ∈ chain) : z = x ∨ before z x = true := by
  obtain ⟨init, rfl⟩ := List.getLast?_eq_some_iff.mp last
  rcases List.mem_append.mp here with here | here
  · exact Or.inr ((List.pairwise_append.mp increasing).2.2 z here x (List.mem_singleton_self x)).1
  · exact Or.inl (List.mem_singleton.mp here)

/-- The candidate of a chain is an earlier element that no other one lies above. -/
theorem latest_eq_some (trans : ∀ x y z, before x y = true → before y z = true → before x z = true)
    (increasing : chain.Pairwise fun x y => before x y = true ∧ before y x = false) :
    latest before y chain = some x ↔
      x ∈ chain ∧ before x y = true ∧ ∀ z ∈ chain, before z y = true → z = x ∨ before z x = true := by
  have member : ∀ z, z ∈ chain.takeWhile (before · y) ↔ z ∈ chain ∧ before z y = true := fun z =>
    mem_takeWhile_of_increasing trans increasing
  have sorted := increasing.sublist (List.takeWhile_sublist (before · y))
  constructor
  · intro last
    obtain ⟨here, earlier⟩ := (member x).mp (List.mem_of_getLast? last)
    exact ⟨here, earlier, fun z in_chain below => before_getLast sorted last ((member z).mpr ⟨in_chain, below⟩)⟩
  · rintro ⟨here, earlier, top⟩
    have taken := (member x).mpr ⟨here, earlier⟩
    obtain ⟨l, last⟩ := Option.isSome_iff_exists.mp (List.getLast?_isSome.mpr (List.ne_nil_of_mem taken))
    obtain ⟨l_here, l_earlier⟩ := (member l).mp (List.mem_of_getLast? last)
    rw [latest, last]
    rcases top l l_here l_earlier with rfl | below
    · rfl
    · rcases before_getLast sorted last taken with rfl | above
      · rfl
      · rw [eq_of_increasing increasing l_here here below above]

end Chain

omit [DecidableEq K] in
theorem Ordered.same_chain (ordered : Ordered before chains) {chain other : K × List A} (member : chain ∈ chains)
    (member' : other ∈ chains) (same : chain.1 = other.1) : chain = other := by
  have distinct := ordered.distinct
  clear ordered
  induction chains with
  | nil => exact nomatch member
  | cons first rest ih =>
    obtain ⟨apart, distinct⟩ := List.pairwise_cons.mp distinct
    rcases List.mem_cons.mp member with rfl | in_rest
    · rcases List.mem_cons.mp member' with rfl | in_rest'
      · rfl
      · exact absurd same (apart other in_rest')
    · rcases List.mem_cons.mp member' with rfl | in_rest'
      · exact absurd same.symm (apart chain in_rest)
      · exact ih in_rest in_rest' distinct

/-- A candidate is the latest earlier element of another chain. -/
theorem Ordered.mem_candidates (ordered : Ordered before chains) {x : K × A} :
    x ∈ candidates before chains k y ↔ Element chains x ∧ x.1 ≠ k ∧ before x.2 y = true ∧
      ∀ z, Element chains z → z.1 = x.1 → before z.2 y = true → z = x ∨ before z.2 x.2 = true := by
  simp only [candidates, List.mem_filterMap]
  constructor
  · rintro ⟨chain, member, found⟩
    split at found
    · exact nomatch found
    · next other =>
      obtain ⟨l, last, rfl⟩ := Option.map_eq_some_iff.mp found
      obtain ⟨here, earlier, top⟩ := (latest_eq_some ordered.trans (ordered.increasing chain member)).mp last
      refine ⟨⟨chain, member, rfl, here⟩, other, earlier, ?_⟩
      rintro ⟨j, z⟩ ⟨chain', member', rfl, z_here⟩ same below
      cases ordered.same_chain member' member same
      exact (top z z_here below).imp_left fun same => by rw [same]
  · rintro ⟨⟨chain, member, same, here⟩, other, earlier, top⟩
    refine ⟨chain, member, ?_⟩
    rw [same, if_neg other]
    refine Option.map_eq_some_iff.mpr ⟨x.2, (latest_eq_some ordered.trans (ordered.increasing chain member)).mpr
      ⟨here, earlier, fun z z_here below => ?_⟩, rfl⟩
    exact (top (x.1, z) ⟨chain, member, same, z_here⟩ rfl below).imp_left (congrArg Prod.snd)

theorem Ordered.exists_candidate (ordered : Ordered before chains) {z : K × A} (element : Element chains z)
    (other : z.1 ≠ k) (below : before z.2 y = true) :
    ∃ c ∈ candidates before chains k y, c.1 = z.1 ∧ (z = c ∨ before z.2 c.2 = true) := by
  obtain ⟨chain, member, same, here⟩ := element
  have increasing := ordered.increasing chain member
  have taken := (mem_takeWhile_of_increasing ordered.trans increasing).mpr ⟨here, below⟩
  obtain ⟨l, last⟩ := Option.isSome_iff_exists.mp (List.getLast?_isSome.mpr (List.ne_nil_of_mem taken))
  refine ⟨(z.1, l), List.mem_filterMap.mpr ⟨chain, member, ?_⟩, rfl, ?_⟩
  · rw [same, if_neg other, latest, last, Option.map_some]
  · rcases before_getLast (increasing.sublist (List.takeWhile_sublist _)) last taken with eq | under
    · exact Or.inl (Prod.ext rfl eq)
    · exact Or.inr under

section Prev
variable {chain : List A} {prev start : Option A}

theorem exists_withPrev (start : Option A) (here : y ∈ chain) : ∃ prev, (prev, y) ∈ withPrev start chain := by
  induction chain generalizing start with
  | nil => exact nomatch here
  | cons first rest ih =>
    rcases List.mem_cons.mp here with rfl | here
    · exact ⟨start, List.mem_cons_self⟩
    · obtain ⟨prev, member⟩ := ih (some first) here
      exact ⟨prev, List.mem_cons_of_mem _ member⟩

theorem mem_of_withPrev (member : (prev, y) ∈ withPrev start chain) : y ∈ chain := by
  induction chain generalizing start with
  | nil => exact nomatch member
  | cons first rest ih =>
    rcases List.mem_cons.mp member with same | member
    · cases same
      exact List.mem_cons_self
    · exact List.mem_cons_of_mem _ (ih member)

/-- The one before is an earlier element of the chain. -/
theorem prev_of_withPrev (increasing : chain.Pairwise fun x y => before x y = true ∧ before y x = false)
    (member : (some x, y) ∈ withPrev start chain) :
    start = some x ∨ x ∈ chain ∧ before x y = true ∧ before y x = false := by
  induction chain generalizing start with
  | nil => exact nomatch member
  | cons first rest ih =>
    obtain ⟨behind, increasing⟩ := List.pairwise_cons.mp increasing
    rcases List.mem_cons.mp member with same | member
    · cases same
      exact Or.inl rfl
    · rcases ih increasing member with same | ⟨here, later⟩
      · cases same
        exact Or.inr ⟨List.mem_cons_self, behind y (mem_of_withPrev member)⟩
      · exact Or.inr ⟨List.mem_cons_of_mem _ here, later⟩

theorem withPrev_ne_none (first : A) : (none, y) ∉ withPrev (some first) chain := by
  induction chain generalizing first with
  | nil => exact List.not_mem_nil
  | cons second rest ih =>
    intro member
    rcases List.mem_cons.mp member with same | member
    · cases same
    · exact ih second member

/-- It is above the other earlier ones. -/
theorem below_of_withPrev (increasing : chain.Pairwise fun x y => before x y = true ∧ before y x = false)
    (member : (prev, y) ∈ withPrev start chain) {z : A} (here : z ∈ chain) (below : before z y = true) :
    z = y ∨ ∃ p ∈ prev, z = p ∨ before z p = true := by
  induction chain generalizing start with
  | nil => exact nomatch here
  | cons first rest ih =>
    obtain ⟨behind, sorted⟩ := List.pairwise_cons.mp increasing
    rcases List.mem_cons.mp member with same | member
    · cases same
      rcases List.mem_cons.mp here with rfl | here
      · exact Or.inl rfl
      · exact nomatch below.symm.trans (behind z here).2
    · rcases List.mem_cons.mp here with rfl | here
      · cases prev with
        | none => exact absurd member (withPrev_ne_none z)
        | some p =>
          rcases prev_of_withPrev sorted member with same | ⟨p_here, -⟩
          · cases same
            exact Or.inr ⟨z, rfl, Or.inl rfl⟩
          · exact Or.inr ⟨p, rfl, Or.inr (behind p p_here).1⟩
      · exact ih sorted member here

end Prev

theorem Ordered.mem_immediate (ordered : Ordered before chains) {chain : K × List A} (member : chain ∈ chains)
    {prev : Option A} (curr : (prev, y) ∈ withPrev none chain.2) {x : K × A} :
    x ∈ immediate before chains chain.1 prev y ↔ Cover before chains x (chain.1, y) := by
  have increasing := ordered.increasing chain member
  have target : Element chains (chain.1, y) := ⟨chain, member, rfl, mem_of_withPrev curr⟩
  simp only [immediate, maximal, List.mem_filter, ordered.mem_candidates, Bool.not_eq_true', List.any_eq_false,
    Bool.and_eq_true, decide_eq_true_eq, not_and, Bool.not_eq_true, Option.any_eq_false]
  constructor
  · rintro ⟨⟨⟨source, apart, earlier, top⟩, maximal⟩, over_prev⟩
    refine ⟨source, target, apart, earlier, ?_⟩
    rintro z element other_x other_y ⟨above, below⟩
    obtain ⟨chain', member', same, here⟩ := element
    by_cases own : z.1 = chain.1
    · -- `z` is not above the element before the target
      cases ordered.same_chain member' member (same.trans own)
      rcases below_of_withPrev increasing curr here below with rfl | ⟨p, is_prev, under⟩
      · exact other_y (Prod.ext own rfl)
      · have x_under : before x.2 p = true := by
          rcases under with rfl | under
          · exact above
          · exact ordered.trans _ _ _ above under
        exact nomatch x_under.symm.trans (over_prev p is_prev)
    · by_cases beside : z.1 = x.1
      · rcases top z ⟨chain', member', same, here⟩ beside below with rfl | under
        · exact other_x rfl
        · obtain ⟨chain'', member'', same', x_here⟩ := source
          cases ordered.same_chain member'' member' (same'.trans (beside.symm.trans same.symm))
          exact other_x (Prod.ext beside (eq_of_increasing (ordered.increasing _ member') here x_here under above))
      · -- the candidate of its chain is above `z`
        obtain ⟨c, candidate, c_same, under⟩ := ordered.exists_candidate ⟨chain', member', same, here⟩ own below
        have x_under : before x.2 c.2 = true := by
          rcases under with rfl | under
          · exact above
          · exact ordered.trans _ _ _ above under
        have apart_c : x.1 ≠ c.1 := fun same_c => beside (c_same.symm.trans same_c.symm)
        exact nomatch x_under.symm.trans (maximal c (ordered.mem_candidates.mp candidate) apart_c)
  · rintro ⟨source, -, apart, earlier, none_between⟩
    refine ⟨⟨⟨source, apart, earlier, fun z element same below => ?_⟩, ?_⟩, ?_⟩
    · obtain ⟨chain', member', x_same, x_here⟩ := source
      obtain ⟨chain'', member'', z_same, z_here⟩ := element
      cases ordered.same_chain member'' member' (z_same.trans (same.trans x_same.symm))
      rcases total_of_increasing (ordered.increasing _ member') z_here x_here with eq | under | above
      · exact Or.inl (Prod.ext same eq)
      · exact Or.inr under
      · by_contra differs
        have other_x : z ≠ x := fun eq => differs (Or.inl eq)
        have other_y : z ≠ (chain.1, y) := fun eq => apart (same.symm.trans (congrArg Prod.fst eq))
        exact none_between z ⟨_, member', z_same, z_here⟩ other_x other_y ⟨above, below⟩
    · rintro c ⟨element, c_apart, below, -⟩ beside
      rw [Bool.eq_false_iff]
      intro above
      have other_x : c ≠ x := fun eq => beside (congrArg Prod.fst eq).symm
      have other_y : c ≠ (chain.1, y) := fun eq => c_apart (congrArg Prod.fst eq)
      exact none_between c element other_x other_y ⟨above, below⟩
    · rintro p rfl
      rw [Bool.eq_false_iff]
      intro above
      rcases prev_of_withPrev increasing curr with same | ⟨p_here, below, strict⟩
      · exact nomatch same
      · have other_x : (chain.1, p) ≠ x := fun eq => apart (congrArg Prod.fst eq).symm
        have other_y : (chain.1, p) ≠ (chain.1, y) := fun eq => by
          rw [(Prod.mk.inj eq).2] at below strict
          exact nomatch below.symm.trans strict
        exact none_between (chain.1, p) ⟨chain, member, rfl, p_here⟩ other_x other_y ⟨above, below⟩

theorem mem_considered (ordered : Ordered before chains) {x y : K × A} :
    (x, y) ∈ considered before chains ↔ Cover before chains x y := by
  simp only [considered, List.mem_flatMap, List.mem_map, Prod.mk.injEq]
  constructor
  · rintro ⟨chain, member, ⟨prev, z⟩, curr, w, found, rfl, rfl⟩
    exact (ordered.mem_immediate member curr).mp found
  · intro cover
    obtain ⟨chain, member, same, here⟩ := cover.target
    obtain ⟨prev, curr⟩ := exists_withPrev none here
    have target : (chain.1, y.2) = y := by rw [same]
    refine ⟨chain, member, (prev, y.2), curr, x, (ordered.mem_immediate member curr).mpr (target.symm ▸ cover), rfl, target⟩

end Covers
