import Maple.Systematic.SearchPaths

/-! One round of `Explore`: the node of a state that has been explored before is replayed,
and in the last node of the stack a thread is chosen that is not done. -/
namespace Maple.Systematic

namespace SearchNode

/-- The node seen as a frame of a depth-first search. -/
def frame (node : SearchNode) : DepthFirst.Frame Thread := ⟨node.sel.getD 0, {t | t ∈ node.done}⟩

/-- What a node at the end of a path holds. -/
structure Ok (r : Registry) (k : Knobs) (prog : Deterministic) (π : List Thread) (node : SearchNode) : Prop where
  enabled : node.enabled = (SearchInfo.newNode { enabled := prog.enabled 0 π }).enabled
  backtrack : ∀ t, t ∈ node.backtrack ↔ prog.Enables π t
  done : ∀ t ∈ node.done, prog.Enables π t
  pruned : ∀ t, prog.Enables π t → ¬ Explored.Allowed r k prog π t → t ∈ node.done

/-- Threads are added to the done set. -/
structure Marked (node node' : SearchNode) (D : Thread → Prop) : Prop where
  sel : node'.sel = node.sel
  backtrack : node'.backtrack = node.backtrack
  enabled : node'.enabled = node.enabled
  done : ∀ t, t ∈ node'.done ↔ t ∈ node.done ∨ D t

variable {node : SearchNode} {t u : Thread}

theorem isDone_iff : node.isDone t = true ↔ t ∈ node.done := Std.ExtTreeSet.mem_iff_contains.symm

theorem mem_addDone : t ∈ (node.addDone u).done ↔ t ∈ node.done ∨ t = u := by
  rw [addDone, Std.ExtTreeSet.mem_insert, Std.compare_eq_iff_eq]
  grind

theorem finished_iff : node.finished = true ↔ ∀ t ∈ node.backtrack, t ∈ node.done := by
  simp [finished, isDone_iff]

theorem foldl_addBacktrack (actions : List Action) (node : SearchNode) :
    ∃ backtrack, actions.foldl (fun node a => node.addBacktrack a.thd) node = { node with backtrack } ∧
      ∀ t, t ∈ backtrack ↔ t ∈ node.backtrack ∨ ∃ a ∈ actions, a.thd = t := by
  induction actions generalizing node with
  | nil => exact ⟨node.backtrack, rfl, by simp⟩
  | cons a rest ih =>
    obtain ⟨backtrack, added, members⟩ := ih (node.addBacktrack a.thd)
    refine ⟨backtrack, added, fun t => ?_⟩
    rw [members, addBacktrack, Std.ExtTreeSet.mem_insert, Std.compare_eq_iff_eq, List.exists_mem_cons_iff]
    grind

/-- All nodes but the ones on top have a selected thread, and lie on one path. -/
def AllOk (r : Registry) (k : Knobs) (prog : Deterministic) : List Thread → List SearchNode → Prop
  | _, [] => True
  | π, node :: rest => node.Ok r k prog π ∧ node.sel.isSome ∧ AllOk r k prog (π ++ [node.frame.sel]) rest

theorem allOk_append {r : Registry} {k : Knobs} {prog : Deterministic} {π : List Thread} {S T : List SearchNode} :
    AllOk r k prog π (S ++ T) ↔
      AllOk r k prog π S ∧ AllOk r k prog (π ++ DepthFirst.steps (S.map frame)) T := by
  induction S generalizing π with
  | nil => simp [AllOk, DepthFirst.steps]
  | cons node rest ih => simp [AllOk, ih, DepthFirst.steps, and_assoc]

end SearchNode

namespace Explorer
open Explored

variable {r : Registry} {ids : Ids} {k : Knobs} {info : PorInfo} {prog : Deterministic} {run : ℕ}
  {e here : Explored} {p : Explorer} {π : List Thread} {node : SearchNode} {a : Action} {t : Thread}

/-- Check 3) of `PickNext`. -/
def visited (ids : Ids) (k : Knobs) (info : PorInfo) (e : Explored) (a : Action) : Bool :=
  k.por && (e.chess.porVisited ids info a).getD false

theorem prune_spec (node : SearchNode) (total : k.por = true → ∃ b, e.chess.porVisited ids info a = some b) :
    ∃ node', prune ids k info e node a = some node' ∧
      node.Marked node' fun t => t = a.thd ∧ (e.permits k a = false ∨ visited ids k info e a = true) := by
  cases done : node.isDone a.thd with
  | true =>
    refine ⟨node, by simp [prune, done], rfl, rfl, rfl, fun t => ?_⟩
    rw [or_iff_left_of_imp]
    rintro ⟨rfl, _⟩
    exact SearchNode.isDone_iff.mp done
  | false =>
    obtain ⟨v, found, same⟩ : ∃ v, (if k.por then e.chess.porVisited ids info a else pure false) = some v ∧
        visited ids k info e a = v := by
      cases on : k.por with
      | false => exact ⟨false, rfl, by simp [visited, on]⟩
      | true =>
        obtain ⟨b, found⟩ := total on
        exact ⟨b, found, by simp [visited, on, found]⟩
    have ran : prune ids k info e node a = some (
        let node := if k.fair && !e.fairEnabled a then node.addDone a.thd else node
        let node := if k.pb && !e.pbEnabled k a then node.addDone a.thd else node
        if v then node.addDone a.thd else node) := by
      simp only [prune, done]
      cases on : k.por with
      | false =>
        rw [on] at found
        cases found
        rfl
      | true =>
        rw [on, if_pos rfl] at found
        simp only [found]
        rfl
    refine ⟨_, ran, ?_⟩
    rw [same]
    have forbids : (e.permits k a = false) ↔
        ((k.fair && !e.fairEnabled a) = true ∨ (k.pb && !e.pbEnabled k a) = true) := by
      simp only [permits]
      grind
    rw [forbids]
    cases k.fair && !e.fairEnabled a <;> cases k.pb && !e.pbEnabled k a <;> cases v
    all_goals exact ⟨rfl, rfl, rfl, fun t => by simp [SearchNode.mem_addDone]⟩

theorem foldlM_prune (actions : List Action) (node : SearchNode)
    (total : k.por = true → ∀ a ∈ actions, ∃ b, e.chess.porVisited ids info a = some b) :
    ∃ node', actions.foldlM (prune ids k info e) node = some node' ∧ node.Marked node' fun t =>
      ∃ a ∈ actions, t = a.thd ∧ (e.permits k a = false ∨ visited ids k info e a = true) := by
  induction actions generalizing node with
  | nil => exact ⟨node, rfl, rfl, rfl, rfl, by simp⟩
  | cons a rest ih =>
    obtain ⟨between, pruned, first⟩ := prune_spec node fun on => total on a List.mem_cons_self
    obtain ⟨node', later, marked⟩ := ih between fun on b member => total on b (List.mem_cons_of_mem _ member)
    refine ⟨node', by simp [pruned, later], marked.sel.trans first.sel, marked.backtrack.trans first.backtrack,
      marked.enabled.trans first.enabled, fun t => ?_⟩
    rw [marked.done, first.done, List.exists_mem_cons_iff, or_assoc]

/-- The second pass finds an action that is not done, if there is one. -/
theorem foldl_choose (e : Explored) (node : SearchNode) (actions : List Action) (next : Option Action) :
    (actions.foldl (choose e node) next = none ↔ next = none ∧ ∀ a ∈ actions, a.thd ∈ node.done) ∧
      ∀ a, actions.foldl (choose e node) next = some a → next = some a ∨ a ∈ actions ∧ a.thd ∉ node.done := by
  induction actions generalizing next with
  | nil => simp
  | cons b rest ih =>
    obtain ⟨none, some⟩ := ih (choose e node next b)
    simp only [List.foldl_cons, none, List.forall_mem_cons]
    by_cases done : b.thd ∈ node.done
    · have kept : choose e node next b = next := by simp [choose, SearchNode.isDone_iff, done]
      rw [kept] at some ⊢
      exact ⟨by simp [done], fun a found =>
        (some a found).imp_right (And.imp_left (List.mem_cons_of_mem _))⟩
    · have chosen : choose e node next b = next ∨ choose e node next b = Option.some b := by
        simp only [choose, SearchNode.isDone_iff, done, if_false]
        cases next with
        | none => exact Or.inr rfl
        | some other => cases e.isPreemptive b <;> simp
      have found : choose e node next b ≠ Option.none := by
        simp only [choose, SearchNode.isDone_iff, done, if_false]
        cases next with
        | none => simp
        | some other => cases e.isPreemptive b <;> simp
      refine ⟨by simp [found, done], fun a picked => ?_⟩
      rcases some a picked with here | ⟨member, undone⟩
      · rcases chosen with kept | new
        · exact Or.inl (kept ▸ here)
        · rw [new, Option.some.injEq] at here
          subst here
          exact Or.inr ⟨List.mem_cons_self, done⟩
      · exact Or.inr ⟨List.mem_cons_of_mem _ member, undone⟩

theorem modify_append {A : Type} (f : A → A) (S T : List A) (x : A) :
    (S ++ x :: T).modify S.length f = S ++ f x :: T := by
  induction S with
  | nil => rfl
  | cons y rest ih => simp [ih]

theorem follows_hashable (known : prog.Known r k) (follows : Follows r.toIds k prog run info π e)
    (on : k.por = true) (member : a ∈ e.chess.currState.enabled) : Por.Hashable a := by
  obtain ⟨b, listed, same⟩ := List.mem_map.mp (follows.agree.subset (List.mem_map_of_mem member))
  simp only [ActionInfo.ofAction, ActionInfo.mk.injEq] at same
  obtain ⟨_, obj, _, inst⟩ := same
  intro object missing
  exact known.hashable on π b listed (obj ▸ object) (inst ▸ missing)

theorem porVisited_total (known : prog.Known r k) (follows : Follows r.toIds k prog run info π e)
    (on : k.por = true) (member : a ∈ e.chess.currState.enabled) :
    ∃ b, e.chess.porVisited r.toIds info a = some b := by
  by_cases transparent : a.obj = none
  · exact ⟨false, by simp [ChessScheduler.porVisited, transparent]⟩
  · obtain ⟨b, found, _⟩ := (follows.consistent on).porVisited transparent (follows_hashable known follows on member)
    exact ⟨b, found⟩

/-- What the first pass and the second one do in a node. -/
theorem passes_spec (node : SearchNode) (known : prog.Known r k) (sound : Sound r.toIds k info)
    (path : DepthFirst.Path prog.Enables π)
    (replayed : replay r.toIds k prog run info π = some e) (arrived : e.arrive k = some here)
    (follows : Follows r.toIds k prog run info π here)
    (fits : node.enabled = (SearchInfo.newNode { enabled := prog.enabled 0 π }).enabled)
    (backtrack : ∀ t, t ∈ node.backtrack ↔ prog.Enables π t) (done : ∀ t ∈ node.done, prog.Enables π t) :
    ∃ node', here.chess.currState.enabled.foldlM (prune r.toIds k info here) node = some node' ∧
      node'.Ok r k prog π ∧ node'.sel = node.sel ∧ (∀ t ∈ node.done, t ∈ node'.done) ∧
      (k.por = false → ∀ t, Allowed r k prog π t → t ∈ node'.done → t ∈ node.done) ∧
      (here.chess.currState.enabled.foldl (choose here node') none = none ∧ (∀ t, prog.Enables π t → t ∈ node'.done) ∨
        ∃ a, here.chess.currState.enabled.foldl (choose here node') none = some a ∧
          here.chess.currState.findEnabled a.thd = some a ∧ a.thd ∉ node'.done) := by
  obtain ⟨node', pruned, marked⟩ := foldlM_prune here.chess.currState.enabled node
    fun on a member => porVisited_total known follows on member
  have enables {t : Thread} : prog.Enables π t ↔ ∃ a ∈ here.chess.currState.enabled, t = a.thd := by
    rw [follows.enables_iff]
    exact exists_congr fun a => follows.distinct.findEnabled_iff.trans (and_congr_right fun _ => eq_comm)
  refine ⟨node', pruned, ⟨marked.enabled.trans fits, fun t => ?_, fun t member => ?_, fun t enabled forbidden => ?_⟩,
    marked.sel, fun t member => (marked.done t).mpr (Or.inl member), fun off t allowed member => ?_, ?_⟩
  · rw [marked.backtrack, backtrack]
  · rcases (marked.done t).mp member with old | ⟨a, listed, same, _⟩
    · exact done t old
    · exact enables.mpr ⟨a, listed, same⟩
  · obtain ⟨a, listed, rfl⟩ := enables.mp enabled
    have found := follows.distinct.findEnabled_iff.mpr ⟨listed, rfl⟩
    rw [allowed_iff known sound path replayed arrived found, Bool.not_eq_true] at forbidden
    exact (marked.done _).mpr (Or.inr ⟨a, listed, rfl, Or.inl forbidden⟩)
  · rcases (marked.done t).mp member with old | ⟨a, listed, rfl, forbidden | visits⟩
    · exact old
    · have found := follows.distinct.findEnabled_iff.mpr ⟨listed, rfl⟩
      rw [allowed_iff known sound path replayed arrived found] at allowed
      simp [allowed] at forbidden
    · simp [visited, off] at visits
  · obtain ⟨none, some⟩ := foldl_choose here node' here.chess.currState.enabled none
    cases chosen : here.chess.currState.enabled.foldl (choose here node') Option.none with
    | none =>
      refine Or.inl ⟨rfl, fun t enabled => ?_⟩
      obtain ⟨a, listed, rfl⟩ := enables.mp enabled
      exact (none.mp chosen).2 a listed
    | some a =>
      obtain ⟨listed, undone⟩ := (some a chosen).resolve_left (by simp)
      exact Or.inr ⟨a, rfl, follows.distinct.findEnabled_iff.mpr ⟨listed, rfl⟩, undone⟩

section Rounds
variable {S : List SearchNode} {next : SearchInfo}

/-- The run has got to the end of a schedule. -/
structure At (r : Registry) (k : Knobs) (prog : Deterministic) (run : ℕ) (info : PorInfo) (π : List Thread)
    (e : Explored) : Prop where
  path : DepthFirst.Path prog.Enables π
  replayed : replay r.toIds k prog run info π = some e
  follows : Follows r.toIds k prog run info π e

/-- In a node of the prefix its selected thread goes on. -/
theorem round_prefix (known : prog.Known r k) (there : At r k prog run info π p.explored) {T : List SearchNode}
    (stack : p.searchInfo.stack = S ++ node :: T) (cursor : p.searchInfo.cursor = S.length)
    (inside : S.length + 1 < p.prefixSize)
    (fits : node.enabled = (SearchInfo.newNode { enabled := prog.enabled 0 π }).enabled)
    (sel : node.sel = some t) (enables : prog.Enables π t) :
    ∃ explored, At r k prog run info (π ++ [t]) explored ∧ p.round r.toIds k info prog run =
      some ({ p with
        explored
        searchInfo := { p.searchInfo with cursor := S.length + 1 }
        currNode := S.length }, true) := by
  obtain ⟨path, replayed, follows⟩ := there
  obtain ⟨here, a, next, arrived, there, found, took, taken, advanced, later⟩ := advance_spec known follows enables
  obtain ⟨_, rfl⟩ := there.distinct.findEnabled_iff.mp found
  refine ⟨next, ⟨path.snoc enables, by simp [replay_append, replayed, advanced], later⟩, ?_⟩
  have node? : p.searchInfo.getNextNode p.explored.chess.currState =
      some ({ p.searchInfo with cursor := S.length + 1 }, some S.length) := by
    have same : SearchInfo.checkDivergence node p.explored.chess.currState = true :=
      SearchInfo.checkDivergence_newNode follows.agree.symm
        (follows.agree.threads.nodup_iff.mp follows.distinct) fits
    simp [SearchInfo.getNextNode, stack, cursor, debugAssert_pos, same]
  have inner (p' : Explorer) (here : p'.currNode = S.length) (size : p'.prefixSize = p.prefixSize) :
      p'.isPrefix = true := by
    simp only [isPrefix, isFrontier, here, size, Bool.and_eq_true, Bool.not_eq_true', decide_eq_false_iff_not,
      decide_eq_true_eq]
    omega
  have unchanged : (S ++ node :: T).modify S.length (fun node => { node with sel := some a.thd }) = S ++ node :: T := by
    rw [modify_append, ← sel]
  simp [round, node?, inner, arrived, pickNext, stack, sel, found, modifyNode, unchanged, took]

/-- At the frontier, and in a new node, the thread is chosen. -/
theorem round_choose (known : prog.Known r k) (sound : Sound r.toIds k info)
    (there : At r k prog run info π p.explored)
    (node? : p.searchInfo.getNextNode p.explored.chess.currState = some (next, some S.length))
    (stack : next.stack = S ++ [node]) (frontier : S.length + 1 = p.prefixSize ∨ p.prefixSize ≤ S.length)
    (fits : node.enabled = (SearchInfo.newNode { enabled := prog.enabled 0 π }).enabled)
    (backtrack : ∀ t ∈ node.backtrack, prog.Enables π t) (done : ∀ t ∈ node.done, prog.Enables π t) :
    ∃ node', node'.Ok r k prog π ∧ (∀ t ∈ node.done, t ∈ node'.done) ∧
      (k.por = false → ∀ t, Allowed r k prog π t → t ∈ node'.done → t ∈ node.done) ∧
      ((∀ t, prog.Enables π t → t ∈ node'.done) ∧ (∃ explored, explored.schedule = π ∧
          p.round r.toIds k info prog run = some ({ p with
            explored
            searchInfo := { next with stack := S ++ [node'] }
            currNode := S.length
            useless := true }, false)) ∨
        ∃ t explored, prog.Enables π t ∧ t ∉ node'.done ∧ At r k prog run info (π ++ [t]) explored ∧
          p.round r.toIds k info prog run = some ({ p with
            explored
            searchInfo := { next with stack := S ++ [{ node' with sel := some t }.addDone t] }
            currNode := S.length }, true)) := by
  obtain ⟨path, replayed, follows⟩ := there
  have inner (p' : Explorer) (here : p'.currNode = S.length) (size : p'.prefixSize = p.prefixSize) :
      p'.isPrefix = false := by
    simp only [isPrefix, isFrontier, here, size, Bool.and_eq_false_imp, Bool.not_eq_true', decide_eq_false_iff_not]
    omega
  obtain ⟨fairCtrl, arrived, follows'⟩ := arrive_spec follows
  obtain ⟨backtrack', added, members⟩ := SearchNode.foldl_addBacktrack p.explored.chess.currState.enabled node
  have enables {t : Thread} : prog.Enables π t ↔ ∃ a ∈ p.explored.chess.currState.enabled, a.thd = t := by
    rw [follows.enables_iff]
    exact exists_congr fun a => follows.distinct.findEnabled_iff
  obtain ⟨node', pruned, ok, sel, kept, own, picked⟩ :=
    passes_spec { node with backtrack := backtrack' } known sound path replayed arrived follows' fits
    (fun t => by rw [members, ← enables]; exact ⟨fun h => h.elim (backtrack t) id, Or.inr⟩) done
  refine ⟨node', ok, kept, own, ?_⟩
  rcases picked with ⟨none, all⟩ | ⟨a, chosen, found, undone⟩
  · refine Or.inl ⟨all, _, follows'.schedule, ?_⟩
    simp [round, node?, inner, updateBacktrack, modifyNode, stack, modify_append, added, arrived, pickNext, pruned, none]
  · have enabled : prog.Enables π a.thd := follows'.enables_iff.mpr ⟨a, found⟩
    obtain ⟨_, a', explored, arrived', _, found', took, _, advanced, later⟩ := advance_spec known follows enabled
    cases arrived.symm.trans arrived'
    cases found.symm.trans found'
    refine Or.inr ⟨a.thd, explored, enabled, undone,
      ⟨path.snoc enabled, by simp [replay_append, replayed, advanced], later⟩, ?_⟩
    simp [round, node?, inner, updateBacktrack, modifyNode, stack, modify_append, added, arrived, pickNext, pruned,
      chosen, took]

end Rounds

end Explorer
end Maple.Systematic
