import Mathlib

/-! Depth-first search of a tree in several runs. A run replays the stack that the
run before it has left behind, chooses a step that is not done in the last frame, and
goes on down to a leaf; what a run skips is never tried again. -/
namespace DepthFirst
variable {α : Type} {A : List α → α → Prop} {π m r : List α} {t : α}

section Trees

/-- A path of the tree, from the root, where `A π t` says that the node at `π` has a child `t`. -/
inductive Path (A : List α → α → Prop) : List α → Prop
  | nil : Path A []
  | snoc {π : List α} {t : α} (path : Path A π) (allowed : A π t) : Path A (π ++ [t])

def Leaf (A : List α → α → Prop) (π : List α) : Prop := Path A π ∧ ∀ t, ¬ A π t

/-- Nodes have finitely many children, and no path goes on forever. -/
structure Finite (A : List α → α → Prop) : Prop where
  branching : ∀ π, {t | A π t}.Finite
  ends : ∀ f : ℕ → α, ∃ n, ¬ A ((List.range n).map f) (f n)

theorem Path.inv (path : Path A (π ++ [t])) : Path A π ∧ A π t := by
  generalize same : π ++ [t] = σ at path
  cases path with
  | nil => simp at same
  | snoc path allowed =>
    obtain ⟨rfl, last⟩ := List.append_inj' same rfl
    cases last
    exact ⟨path, allowed⟩

theorem Path.of_prefix (path : Path A m) (before : π <+: m) : Path A π := by
  obtain ⟨rest, rfl⟩ := before
  induction rest using List.reverseRecOn with
  | nil => simpa using path
  | append_singleton rest t ih => exact ih (by rw [← List.append_assoc] at path; exact path.inv.1)

/-- Each step of a path is a step of the tree. -/
theorem Path.step (path : Path A m) (before : π ++ [t] <+: m) : A π t := (path.of_prefix before).inv.2

/-- The step behind a proper prefix. -/
theorem exists_step (before : π <+: m) (apart : π ≠ m) : ∃ t, π ++ [t] <+: m := by
  obtain ⟨rest, rfl⟩ := before
  cases rest with
  | nil => simp at apart
  | cons t rest => exact ⟨t, rest, by simp⟩

theorem step_unique {u : α} (first : π ++ [t] <+: m) (second : π ++ [u] <+: m) : t = u := by
  obtain ⟨rest, rfl⟩ := first
  obtain ⟨rest', same⟩ := second
  simp only [List.append_assoc, List.append_cancel_left_eq, List.singleton_append, List.cons.injEq] at same
  exact same.1.symm

theorem Leaf.eq_of_prefix (leaf : Leaf A π) (path : Path A m) (before : π <+: m) : π = m := by
  by_contra apart
  obtain ⟨t, further⟩ := exists_step before apart
  exact leaf.2 t (path.step further)

/-- Paths that grow step by step become the path of one sequence. -/
theorem Path.range (g : ℕ → List α) (paths : ∀ n, Path A (g n)) (grows : ∀ n, ∃ t, g (n + 1) = g n ++ [t]) :
    ∃ f : ℕ → α, ∀ n, A ((List.range n).map f) (f n) := by
  have later (n k : ℕ) : g n <+: g (n + k) := by
    induction k with
    | zero => exact List.prefix_rfl
    | succ k ih =>
      obtain ⟨t, same⟩ := grows (n + k)
      exact ih.trans ⟨[t], same.symm⟩
  have long (n : ℕ) : n ≤ (g n).length := by
    induction n with
    | zero => exact Nat.zero_le _
    | succ n ih =>
      obtain ⟨t, same⟩ := grows n
      simp only [same, List.length_append, List.length_singleton]
      omega
  let f (n : ℕ) : α := (g (n + 1)).get ⟨n, Nat.lt_of_succ_le (long (n + 1))⟩
  have taken (n : ℕ) : (List.range n).map f = (g n).take n := by
    induction n with
    | zero => rfl
    | succ n ih =>
      obtain ⟨rest, same⟩ := later n 1
      rw [List.range_succ, List.map_append, ih, List.take_succ_eq_append_getElem (Nat.lt_of_succ_le (long (n + 1)))]
      congr 1
      rw [← same, List.take_append_of_le_length (long n)]
  refine ⟨f, fun n => (paths (n + 1)).step ?_⟩
  obtain ⟨rest, same⟩ := later n 1
  have first : (g (n + 1)).take n = (g n).take n := by rw [← same, List.take_append_of_le_length (long n)]
  have last : (g (n + 1)).take n ++ [f n] = (g (n + 1)).take (n + 1) :=
    (List.take_succ_eq_append_getElem (Nat.lt_of_succ_le (long (n + 1)))).symm
  rw [taken, ← first, last]
  exact List.take_prefix _ _

/-- Induction from the leaves of the tree to its root. -/
theorem Finite.induction (finite : Finite A) {P : List α → Prop}
    (step : ∀ π, Path A π → (∀ t, A π t → P (π ++ [t])) → P π) (path : Path A π) : P π := by
  by_contra fails
  have next (π : {π // Path A π ∧ ¬ P π}) : ∃ σ : {π // Path A π ∧ ¬ P π}, ∃ t, σ.1 = π.1 ++ [t] := by
    obtain ⟨π, path, fails⟩ := π
    by_contra none
    refine fails (step π path fun t allowed => ?_)
    by_contra later
    exact none ⟨⟨π ++ [t], path.snoc allowed, later⟩, t, rfl⟩
  choose succ grows using next
  let g (n : ℕ) := succ^[n] ⟨π, path, fails⟩
  obtain ⟨f, forever⟩ := Path.range (fun n => (g n).1) (fun n => (g n).2.1) fun n => by
    obtain ⟨t, same⟩ := grows (g n)
    exact ⟨t, by rw [← same]; simp only [g, Function.iterate_succ_apply']⟩
  obtain ⟨n, stops⟩ := finite.ends f
  exact stops (forever n)

theorem Finite.exists_leaf (finite : Finite A) (path : Path A π) : ∃ m, Leaf A m ∧ π <+: m := by
  refine finite.induction (P := fun π => ∃ m, Leaf A m ∧ π <+: m) (fun π path ih => ?_) path
  by_cases leaf : ∀ t, ¬ A π t
  · exact ⟨π, ⟨path, leaf⟩, List.prefix_rfl⟩
  · push Not at leaf
    obtain ⟨t, allowed⟩ := leaf
    obtain ⟨m, found, before⟩ := ih t allowed
    exact ⟨m, found, (List.prefix_append _ _).trans before⟩

theorem Finite.leaves (finite : Finite A) : {m | Leaf A m}.Finite := by
  have below : {m | Leaf A m ∧ [] <+: m}.Finite := by
    refine finite.induction (P := fun π => {m | Leaf A m ∧ π <+: m}.Finite) (fun π path ih => ?_) Path.nil
    have cover : {m | Leaf A m ∧ π <+: m} ⊆ {π} ∪ ⋃ t ∈ {t | A π t}, {m | Leaf A m ∧ π ++ [t] <+: m} := by
      rintro m ⟨leaf, before⟩
      by_cases same : π = m
      · exact Or.inl same.symm
      · obtain ⟨t, further⟩ := exists_step before same
        exact Or.inr (Set.mem_biUnion (show t ∈ {t | A π t} from leaf.1.step further) ⟨leaf, further⟩)
    exact ((Set.finite_singleton π).union ((finite.branching π).biUnion ih)).subset cover
  simpa using below

theorem Finite.exists_depth (finite : Finite A) : ∃ depth, ∀ π, Path A π → π.length ≤ depth := by
  obtain ⟨depth, bound⟩ := (finite.leaves.image List.length).bddAbove
  refine ⟨depth, fun π path => ?_⟩
  obtain ⟨m, leaf, before⟩ := finite.exists_leaf path
  exact before.length_le.trans (bound (Set.mem_image_of_mem _ leaf))

end Trees

/-- A node on the stack: the step last taken from it, and those that are done. -/
structure Frame (α : Type) where
  sel : α
  done : Set α

def steps (S : List (Frame α)) : List α := S.map (·.sel)

/-- The path goes through a step that is not done. -/
def Open (A : List α → α → Prop) : List α → List (Frame α) → List α → Prop
  | _, [], _ => False
  | π, f :: rest, m => (∃ t, A π t ∧ t ∉ f.done ∧ π ++ [t] <+: m) ∨ Open A (π ++ [f.sel]) rest m

/-- The steps taken are steps of the tree, and done. -/
def Wf (A : List α → α → Prop) : List α → List (Frame α) → Prop
  | _, [] => True
  | π, f :: rest => A π f.sel ∧ f.sel ∈ f.done ∧ Wf A (π ++ [f.sel]) rest

section Stacks
variable {S S' T : List (Frame α)} {f : Frame α}

@[simp] theorem steps_append : steps (S ++ T) = steps S ++ steps T := List.map_append

theorem open_append : Open A π (S ++ T) m ↔ Open A π S m ∨ Open A (π ++ steps S) T m := by
  induction S generalizing π with
  | nil => simp [Open, steps]
  | cons f rest ih => simp [Open, ih, steps, or_assoc]

theorem wf_append : Wf A π (S ++ T) ↔ Wf A π S ∧ Wf A (π ++ steps S) T := by
  induction S generalizing π with
  | nil => simp [Wf, steps]
  | cons f rest ih => simp [Wf, ih, steps, and_assoc]

theorem open_single : Open A π [f] m ↔ ∃ t, A π t ∧ t ∉ f.done ∧ π ++ [t] <+: m := by simp [Open]

/-- The frames are those of a path. -/
theorem Wf.path (wf : Wf A π S) (path : Path A π) : Path A (π ++ steps S) := by
  induction S generalizing π with
  | nil => simpa [steps] using path
  | cons f rest ih =>
    obtain ⟨allowed, _, rest⟩ := wf
    simpa [steps] using ih rest (path.snoc allowed)

theorem Open.extends (opened : Open A π S m) : π <+: m := by
  induction S generalizing π with
  | nil => exact opened.elim
  | cons f rest ih =>
    rcases opened with ⟨t, _, _, further⟩ | later
    · exact (List.prefix_append _ _).trans further
    · exact (List.prefix_append _ _).trans (ih later)

/-- What lies below the path of the stack is not open. -/
theorem Wf.not_open (wf : Wf A π S) (below : π ++ steps S <+: m) : ¬ Open A π S m := by
  induction S generalizing π with
  | nil => exact id
  | cons f later ih =>
    obtain ⟨_, done, rest⟩ := wf
    have further : π ++ [f.sel] ++ steps later <+: m := by simpa [steps] using below
    rintro (⟨t, _, undone, through⟩ | opened)
    · exact undone (step_unique ((List.prefix_append _ _).trans further) through ▸ done)
    · exact ih rest further opened

/-- A frame without a step left. -/
theorem open_finished (finished : ∀ t, A (π ++ steps S) t → t ∈ f.done) :
    Open A π (S ++ [f]) m ↔ Open A π S m := by
  rw [open_append, open_single, or_iff_left]
  rintro ⟨t, allowed, undone, _⟩
  exact undone (finished t allowed)

end Stacks

section Runs
variable {Skip : List α → α → Prop} {S S' T : List (Frame α)} {f g : Frame α} {V : List (List α)}
  {saved : Option (List (Frame α))}

/-- Down the tree from the node that the stack leads to. A frame may mark steps as done
that were not taken. -/
inductive Descends (A Skip : List α → α → Prop) : List (Frame α) → List (Frame α) → Prop
  | stop {S : List (Frame α)} (stuck : ∀ t, A (steps S) t → Skip (steps S) t) : Descends A Skip S S
  | push {S S' : List (Frame α)} {f : Frame α} (allowed : A (steps S) f.sel) (own : f.sel ∈ f.done)
      (skipped : ∀ t, A (steps S) t → t ∈ f.done → t = f.sel ∨ Skip (steps S) t)
      (rest : Descends A Skip (S ++ [f]) S') : Descends A Skip S S'

/-- A run from the stack that was saved, if any, whose last frame has a step left. -/
inductive Resumes (A Skip : List α → α → Prop) : Option (List (Frame α)) → List (Frame α) → Prop
  | fresh {S' : List (Frame α)} (descends : Descends A Skip [] S') : Resumes A Skip none S'
  | retry {S S' : List (Frame α)} {f g : Frame α} (allowed : A (steps S) g.sel) (undone : g.sel ∉ f.done)
      (own : g.sel ∈ g.done) (kept : f.done ⊆ g.done)
      (skipped : ∀ t, A (steps S) t → t ∈ g.done → t ∈ f.done ∨ t = g.sel ∨ Skip (steps S) t)
      (rest : Descends A Skip (S ++ [g]) S') : Resumes A Skip (some (S ++ [f])) S'
  | stuck {S : List (Frame α)} {f : Frame α} {t : α} (allowed : A (steps S) t) (undone : t ∉ f.done)
      (skipped : ∀ t, A (steps S) t → t ∉ f.done → Skip (steps S) t) : Resumes A Skip (some (S ++ [f])) S

/-- Frames without a step left are dropped. -/
inductive Settles (A : List α → α → Prop) : List (Frame α) → List (Frame α) → Prop
  | keep (S : List (Frame α)) : Settles A S S
  | drop {S S' : List (Frame α)} {f : Frame α} (finished : ∀ t, A (steps S) t → t ∈ f.done)
      (rest : Settles A S S') : Settles A (S ++ [f]) S'

/-- What the runs to come may still get to. -/
def Remaining (A : List α → α → Prop) : Option (List (Frame α)) → List α → Prop
  | none, _ => True
  | some S, m => Open A [] S m

theorem Settles.spec (settles : Settles A S S') (wf : Wf A [] S) : Wf A [] S' ∧ ∀ m, Open A [] S' m ↔ Open A [] S m := by
  induction settles with
  | keep => exact ⟨wf, fun m => Iff.rfl⟩
  | drop finished rest ih =>
    obtain ⟨wf', same⟩ := ih (wf_append.mp wf).1
    exact ⟨wf', fun m => (same m).trans (open_finished (by simpa using finished)).symm⟩

theorem Descends.extends (descends : Descends A Skip S S') : steps S <+: steps S' := by
  induction descends with
  | stop => exact List.prefix_rfl
  | push _ _ _ _ ih => exact (List.prefix_append _ _).trans (steps_append ▸ ih)

theorem Descends.wf (descends : Descends A Skip S S') (wf : Wf A [] S) : Wf A [] S' := by
  induction descends with
  | stop => exact wf
  | push allowed own _ _ ih => exact ih (wf_append.mpr ⟨wf, allowed, own, trivial⟩)

/-- A run opens only what lies below the node it starts from. -/
theorem Descends.opens (descends : Descends A Skip S S') (opened : Open A [] S' m) :
    Open A [] S m ∨ steps S <+: m := by
  induction descends with
  | stop => exact Or.inl opened
  | push allowed own skipped rest ih =>
    rcases ih opened with older | below
    · rcases open_append.mp older with older | here
      · exact Or.inl older
      · exact Or.inr here.extends
    · exact Or.inr ((List.prefix_append _ _).trans (steps_append ▸ below))

/-- A run that skips nothing ends in a leaf and leaves all others open. -/
theorem Descends.exact (descends : Descends A (fun _ _ => False) S S') (wf : Wf A [] S) :
    Leaf A (steps S') ∧ ∀ m, Leaf A m → Open A [] S m ∨ steps S <+: m → m = steps S' ∨ Open A [] S' m := by
  induction descends with
  | stop stuck =>
    have leaf : Leaf A (steps _) := ⟨wf.path .nil, stuck⟩
    refine ⟨leaf, fun m other before => ?_⟩
    rcases before with opened | below
    · exact Or.inr opened
    · exact Or.inl (leaf.eq_of_prefix other.1 below).symm
  | @push S S' f allowed own skipped rest ih =>
    obtain ⟨leaf, others⟩ := ih (wf_append.mpr ⟨wf, allowed, own, trivial⟩)
    refine ⟨leaf, fun m other before => others m other ?_⟩
    rcases before with opened | below
    · exact Or.inl (open_append.mpr (Or.inl opened))
    · have apart : steps S ≠ m := by
        rintro rfl
        exact other.2 _ allowed
      obtain ⟨t, further⟩ := exists_step below apart
      have step := other.1.step further
      by_cases done : t ∈ f.done
      · obtain rfl := (skipped t step done).resolve_right id
        exact Or.inr (by simpa [steps] using further)
      · exact Or.inl (open_append.mpr (Or.inr (open_single.mpr ⟨t, by simpa using step, done, by simpa using further⟩)))

theorem Resumes.wf (resumes : Resumes A Skip saved S') (wf : ∀ S ∈ saved, Wf A [] S) : Wf A [] S' := by
  cases resumes with
  | fresh descends => exact descends.wf trivial
  | retry allowed undone own kept skipped rest =>
    exact rest.wf (wf_append.mpr ⟨(wf_append.mp (wf _ rfl)).1, allowed, own, trivial⟩)
  | stuck => exact (wf_append.mp (wf _ rfl)).1

theorem Resumes.opens (resumes : Resumes A Skip saved S') (opened : Open A [] S' m) : Remaining A saved m := by
  cases resumes with
  | fresh => trivial
  | @retry S S' f g allowed undone own kept skipped rest =>
    apply open_append.mpr
    rcases rest.opens opened with older | below
    · rcases open_append.mp older with older | here
      · exact Or.inl older
      · obtain ⟨t, step, other, further⟩ := open_single.mp here
        exact Or.inr (open_single.mpr ⟨t, step, fun done => other (kept done), further⟩)
    · exact Or.inr (open_single.mpr ⟨g.sel, allowed, undone, by simpa [steps] using below⟩)
  | stuck => exact open_append.mpr (Or.inl opened)

/-- Each run ends above a leaf that was open. -/
theorem Resumes.exists_open (finite : Finite A) (resumes : Resumes A Skip saved S') (wf : ∀ S ∈ saved, Wf A [] S) :
    ∃ m, Leaf A m ∧ steps S' <+: m ∧ Remaining A saved m := by
  have path : Path A (steps S') := (resumes.wf wf).path .nil
  cases resumes with
  | fresh =>
    obtain ⟨m, leaf, below⟩ := finite.exists_leaf path
    exact ⟨m, leaf, below, trivial⟩
  | @retry S S' f g allowed undone own kept skipped rest =>
    obtain ⟨m, leaf, below⟩ := finite.exists_leaf path
    have through : steps S ++ [g.sel] <+: m := by simpa [steps] using rest.extends.trans below
    exact ⟨m, leaf, below, open_append.mpr (Or.inr (open_single.mpr ⟨g.sel, allowed, undone, through⟩))⟩
  | @stuck _ f t allowed undone skipped =>
    obtain ⟨m, leaf, below⟩ := finite.exists_leaf (path.snoc allowed)
    exact ⟨m, leaf, (List.prefix_append _ _).trans below,
      open_append.mpr (Or.inr (open_single.mpr ⟨t, allowed, undone, below⟩))⟩

/-- The runs so far: no result comes twice, and nothing is open below one. -/
structure Searched (A : List α → α → Prop) (V : List (List α)) (saved : Option (List (Frame α))) : Prop where
  wf : ∀ S ∈ saved, Wf A [] S
  distinct : V.Nodup
  closed : ∀ r ∈ V, ∀ m, r <+: m → ¬ Remaining A saved m

theorem searched_none : Searched A [] none := ⟨by simp, List.nodup_nil, by simp⟩

/-- The leaves that are left. -/
def openLeaves (A : List α → α → Prop) (saved : Option (List (Frame α))) : Set (List α) :=
  {m | Leaf A m ∧ Remaining A saved m}

/-- After each run fewer leaves are open. -/
theorem Searched.resume (searched : Searched A V saved) (finite : Finite A) (resumes : Resumes A Skip saved S')
    (settles : Settles A S' T) : Searched A (V ++ [steps S']) (some T) ∧
      (openLeaves A (some T)).ncard < (openLeaves A saved).ncard := by
  have wf := resumes.wf searched.wf
  obtain ⟨wf', same⟩ := settles.spec wf
  obtain ⟨m, leaf, below, opened⟩ := resumes.exists_open finite searched.wf
  have fewer : openLeaves A (some T) ⊂ openLeaves A saved := by
    refine Set.ssubset_iff_exists.mpr ⟨fun n left => ⟨left.1, resumes.opens ((same n).mp left.2)⟩, m,
      ⟨leaf, opened⟩, fun later => ?_⟩
    exact wf.not_open below ((same m).mp later.2)
  refine ⟨⟨by simpa using wf', ?_, fun r member n before later => ?_⟩,
    Set.ncard_lt_ncard fewer (finite.leaves.subset fun n => And.left)⟩
  · refine List.nodup_append.mpr ⟨searched.distinct, List.nodup_singleton _, ?_⟩
    rintro r member _ single rfl
    cases List.mem_singleton.mp single
    exact searched.closed _ member m below opened
  · have opened := (same n).mp later
    rcases List.mem_append.mp member with old | new
    · exact searched.closed r old n before (resumes.opens opened)
    · cases List.mem_singleton.mp new
      exact wf.not_open before opened

/-- The results are leaves, and the other leaves are open. -/
structure Complete (A : List α → α → Prop) (V : List (List α)) (saved : Option (List (Frame α))) : Prop where
  leaves : ∀ r ∈ V, Leaf A r
  all : ∀ m, Leaf A m → m ∈ V ∨ Remaining A saved m

theorem complete_none : Complete A [] none := ⟨by simp, fun _ _ => Or.inr trivial⟩

theorem Complete.resume (complete : Complete A V saved) (searched : Searched A V saved)
    (resumes : Resumes A (fun _ _ => False) saved S') (settles : Settles A S' T) :
    Complete A (V ++ [steps S']) (some T) := by
  obtain ⟨wf', same⟩ := settles.spec (resumes.wf searched.wf)
  obtain ⟨leaf, others⟩ : Leaf A (steps S') ∧ ∀ m, Leaf A m → Remaining A saved m → m = steps S' ∨ Open A [] S' m := by
    cases resumes with
    | fresh descends =>
      obtain ⟨leaf, others⟩ := descends.exact trivial
      exact ⟨leaf, fun m other _ => others m other (Or.inr (List.nil_prefix))⟩
    | @retry S S' f g allowed undone own kept skipped rest =>
      obtain ⟨leaf, others⟩ := rest.exact (wf_append.mpr ⟨(wf_append.mp (searched.wf _ rfl)).1, allowed, own, trivial⟩)
      refine ⟨leaf, fun m other opened => others m other ?_⟩
      rcases open_append.mp opened with older | here
      · exact Or.inl (open_append.mpr (Or.inl older))
      · obtain ⟨t, step, undone, further⟩ := open_single.mp here
        by_cases done : t ∈ g.done
        · obtain rfl := ((skipped t step done).resolve_left undone).resolve_right id
          exact Or.inr (by simpa [steps] using further)
        · exact Or.inl (open_append.mpr (Or.inr (open_single.mpr ⟨t, step, done, further⟩)))
    | stuck allowed undone skipped => exact (skipped _ allowed undone).elim
  refine ⟨fun r member => ?_, fun m other => ?_⟩
  · rcases List.mem_append.mp member with old | new
    · exact complete.leaves r old
    · cases List.mem_singleton.mp new
      exact leaf
  · rcases complete.all m other with old | opened
    · exact Or.inl (List.mem_append_left _ old)
    · rcases others m other opened with rfl | later
      · exact Or.inl (List.mem_append_right _ (List.mem_singleton_self _))
      · exact Or.inr ((same m).mpr later)

/-- Once the stack is empty, the results are the leaves. -/
theorem Complete.mem_iff (complete : Complete A V (some [])) : r ∈ V ↔ Leaf A r :=
  ⟨complete.leaves r, fun leaf => (complete.all r leaf).resolve_right id⟩

end Runs

end DepthFirst
