import Maple.Systematic.SearchRounds

/-! All the runs of a systematic search. Each of them resumes the depth-first search of the
tree of executions, so that no execution comes twice. -/
namespace Maple.Systematic

namespace Explored
variable {r : Registry} {k : Knobs} {prog : Deterministic} {σ : List Thread}

theorem path_enables (known : prog.Known r k) (path : DepthFirst.Path (Allowed r k prog) σ) :
    DepthFirst.Path prog.Enables σ := by
  induction path with
  | nil => exact .nil
  | snoc path allowed ih => exact ih.snoc (allowed.enables known ih)

theorem finite_allowed (known : prog.Known r k) (terminates : prog.Terminates) :
    DepthFirst.Finite (Allowed r k prog) where
  branching σ := by
    by_cases runs : ∃ e here, replay r.toIds k prog 0 {} σ = some e ∧ e.arrive k = some here
    · obtain ⟨e, here, replayed, arrived⟩ := runs
      refine (List.finite_toSet (here.chess.currState.enabled.map (·.thd))).subset ?_
      rintro t ⟨e', here', a, replayed', arrived', found, _⟩
      cases replayed.symm.trans replayed'
      cases arrived.symm.trans arrived'
      exact List.mem_map.mpr ⟨a, List.mem_of_find?_eq_some found, by simpa using List.find?_some found⟩
    · refine Set.finite_empty.subset ?_
      rintro t ⟨e, here, a, replayed, arrived, _⟩
      exact runs ⟨e, here, replayed, arrived⟩
  ends f := by
    by_contra forever
    push Not at forever
    have paths (n : ℕ) : DepthFirst.Path (Allowed r k prog) ((List.range n).map f) := by
      induction n with
      | zero => exact .nil
      | succ n ih =>
        rw [List.range_succ, List.map_append]
        exact ih.snoc (forever n)
    obtain ⟨n, stops⟩ := terminates f
    exact stops ((forever n).enables known (path_enables known (paths n)))

end Explored

namespace Explorer
open Explored SearchNode DepthFirst

variable {r : Registry} {k : Knobs} {prog : Deterministic} {run depth : ℕ} {info : PorInfo} {p : Explorer}
  {S : List SearchNode} {node : SearchNode} {π : List Thread} {t : Thread}

/-- The threads selected along the stack. -/
abbrev selected (S : List SearchNode) : List Thread := steps (S.map frame)

theorem ok_select (ok : node.Ok r k prog π) (enables : prog.Enables π t) :
    ({ node with sel := some t }.addDone t).Ok r k prog π where
  enabled := ok.enabled
  backtrack := ok.backtrack
  done u member := by
    rcases mem_addDone.mp member with old | rfl
    · exact ok.done u old
    · exact enables
  pruned u enabled forbidden := mem_addDone.mpr (Or.inl (ok.pruned u enabled forbidden))

theorem At.isTerminal_iff {e : Explored} (there : At r k prog run info π e) :
    e.chess.currState.isTerminal = false ↔ ∃ t, prog.Enables π t := by
  simp only [there.follows.enables_iff, there.follows.distinct.findEnabled_iff]
  cases listed : e.chess.currState.enabled with
  | nil => simp [State.isTerminal, listed]
  | cons a rest => simp [State.isTerminal, listed]

theorem explore_goes (fuel : ℕ) {q : Explorer} (busy : p.explored.chess.currState.isTerminal = false)
    (ran : p.round r.toIds k info prog run = some (q, true)) :
    p.explore r.toIds k info prog run (fuel + 1) = q.explore r.toIds k info prog run fuel := by
  rw [explore, if_neg (by simp [busy])]
  simp only [ran, Option.bind_eq_bind, Option.bind_some, if_true]

theorem explore_stops (fuel : ℕ) {q : Explorer} (busy : p.explored.chess.currState.isTerminal = false)
    (ran : p.round r.toIds k info prog run = some (q, false)) :
    p.explore r.toIds k info prog run (fuel + 1) = some q := by
  rw [explore, if_neg (by simp [busy])]
  simp only [ran, Option.bind_eq_bind, Option.bind_some, Bool.false_eq_true, if_false, Option.pure_def]

/-- The nodes of the prefix are replayed. -/
theorem explore_prefix (S₁ S₂ : List SearchNode) (fuel : ℕ) (known : prog.Known r k)
    (there : At r k prog run info (selected S₁) p.explored)
    (stack : p.searchInfo.stack = S₁ ++ (S₂ ++ [node])) (cursor : p.searchInfo.cursor = S₁.length)
    (size : p.prefixSize = (S₁ ++ S₂).length + 1) (ok : AllOk r k prog (selected S₁) S₂)
    (wf : Wf (Allowed r k prog) (selected S₁) (S₂.map frame)) :
    ∃ explored currNode, p.explore r.toIds k info prog run (S₂.length + fuel) =
        Explorer.explore r.toIds k info prog run fuel
          { p with explored, currNode, searchInfo := { p.searchInfo with cursor := (S₁ ++ S₂).length } } ∧
      At r k prog run info (selected (S₁ ++ S₂)) explored := by
  induction S₂ generalizing S₁ p with
  | nil => exact ⟨p.explored, p.currNode, by simp [← cursor], by simpa using there⟩
  | cons f rest ih =>
    obtain ⟨fits, chosen, ok⟩ := ok
    obtain ⟨allowed, _, wf⟩ := wf
    obtain ⟨t, sel⟩ := Option.isSome_iff_exists.mp chosen
    have here : f.frame.sel = t := by simp [frame, sel]
    have through : selected (S₁ ++ [f]) = selected S₁ ++ [t] := by simp [selected, steps, here]
    rw [here] at allowed ok wf
    have enables := allowed.enables known there.path
    obtain ⟨explored, later, ran⟩ := round_prefix known there (T := rest ++ [node]) (by simpa using stack) cursor
      (by simp only [size, List.length_append, List.length_cons]; omega) fits.enabled sel enables
    obtain ⟨explored', currNode, went, there'⟩ := @ih { p with
        explored
        searchInfo := { p.searchInfo with cursor := S₁.length + 1 }
        currNode := S₁.length } (S₁ ++ [f]) (through ▸ later) (by simpa using stack) (by simp) (by simpa using size)
      (through ▸ ok) (through ▸ wf)
    refine ⟨explored', currNode, ?_, by simpa using there'⟩
    rw [List.length_cons, Nat.add_right_comm, explore_goes _ (there.isTerminal_iff.mpr ⟨t, enables⟩) ran, went]
    simp

/-- What a run ends with. Below the path that it has taken there is at most a node in
which nothing could be chosen. -/
structure Ran (r : Registry) (k : Knobs) (prog : Deterministic) (run : ℕ) (info : PorInfo) (p : Explorer)
    (S : List SearchNode) : Prop where
  rest : p.searchInfo.stack = S ∨ ∃ node, p.searchInfo.stack = S ++ [node] ∧ node.Ok r k prog (selected S) ∧
    ∀ t, prog.Enables (selected S) t → t ∈ node.done
  notDone : p.searchInfo.done = false
  ok : AllOk r k prog [] S
  schedule : p.explored.schedule = selected S
  converges : p.divergence = false
  useless : p.useless = true ↔ ∃ t, prog.Enables (selected S) t
  here : p.useless = false → At r k prog run info (selected S) p.explored

/-- Below the frontier every node is new. -/
theorem explore_descends (fuel : ℕ) (known : prog.Known r k) (sound : Sound r.toIds k info)
    (there : At r k prog run info (selected S) p.explored)
    (deep : ∀ π, DepthFirst.Path (Allowed r k prog) π → π.length ≤ depth) (fuelled : depth < S.length + fuel)
    (stack : p.searchInfo.stack = S) (cursor : p.searchInfo.cursor = S.length) (size : p.prefixSize ≤ S.length)
    (ok : AllOk r k prog [] S) (path : DepthFirst.Path (Allowed r k prog) (selected S)) (notDone : p.searchInfo.done = false)
    (converges : p.divergence = false) (useful : p.useless = false) :
    ∃ q S', p.explore r.toIds k info prog run fuel = some q ∧ Ran r k prog run info q S' ∧
      Descends (Allowed r k prog) (fun _ _ => k.por = true) (S.map frame) (S'.map frame) := by
  induction fuel generalizing S p with
  | zero =>
    have short := deep _ path
    simp only [selected, steps, List.length_map] at short
    omega
  | succ fuel ih =>
    cases terminal : p.explored.chess.currState.isTerminal with
    | true =>
      have ends : ¬ ∃ t, prog.Enables (selected S) t := by simp [← there.isTerminal_iff, terminal]
      refine ⟨p, S, by rw [explore, if_pos terminal], ⟨Or.inl stack, notDone, ok, there.follows.schedule, converges,
        by simp [useful, ends], fun _ => there⟩, .stop fun t allowed => ?_⟩
      exact absurd ⟨t, allowed.enables known there.path⟩ ends
    | false =>
      have fresh : SearchInfo.newNode p.explored.chess.currState =
          SearchInfo.newNode { enabled := prog.enabled 0 (selected S) } :=
        SearchInfo.newNode_congr there.follows.agree there.follows.distinct
      have node? : p.searchInfo.getNextNode p.explored.chess.currState = some ({ p.searchInfo with
          stack := S ++ [SearchInfo.newNode p.explored.chess.currState], cursor := S.length + 1 }, some S.length) := by
        simp [SearchInfo.getNextNode, stack, cursor, debugAssert_pos]
      obtain ⟨node, fits, _, own, ⟨all, explored, schedule, ran⟩ | ⟨t, explored, enables, undone, later, ran⟩⟩ :=
        round_choose known sound there node? rfl (Or.inr size) (by rw [fresh])
          (by simp [SearchInfo.newNode]) (by simp [SearchInfo.newNode])
      · refine ⟨_, S, explore_stops _ terminal ran, ⟨Or.inr ⟨node, rfl, fits, all⟩, notDone, ok, schedule,
          converges, by simpa using there.isTerminal_iff.mp terminal, by simp⟩, .stop fun t allowed => ?_⟩
        by_contra off
        have old := own (by simpa using off) t allowed (all t (allowed.enables known there.path))
        simp [SearchInfo.newNode] at old
      · have allowed : Allowed r k prog (selected S) t := by
          by_contra forbidden
          exact undone (fits.pruned t enables forbidden)
        have through : selected (S ++ [{ node with sel := some t }.addDone t]) = selected S ++ [t] := by
          simp [selected, steps, frame, addDone]
        obtain ⟨q, S', went, finish, descends⟩ := ih (S := S ++ [{ node with sel := some t }.addDone t])
          (p := { p with
            explored
            searchInfo := { p.searchInfo with
              stack := S ++ [{ node with sel := some t }.addDone t], cursor := S.length + 1 }
            currNode := S.length }) (through ▸ later) (by simp; omega) rfl (by simp) (by simp; omega)
          (allOk_append.mpr ⟨ok, by simpa [AllOk, addDone] using ok_select fits enables⟩)
          (through ▸ path.snoc allowed) notDone converges useful
        refine ⟨q, S', (explore_goes _ terminal ran).trans went, finish, ?_⟩
        refine .push (f := ({ node with sel := some t }.addDone t).frame) (by simpa [frame, addDone] using allowed) ?_ ?_
          (by simpa using descends)
        · exact mem_addDone.mpr (Or.inr rfl)
        · intro u allowed' done
          rcases mem_addDone.mp done with old | rfl
          · refine Or.inr (by_contra fun off => ?_)
            have old := own (by simpa using off) u allowed' old
            simp [SearchInfo.newNode] at old
          · exact Or.inl rfl

/-- What is loaded before a run: nothing before the first run, and then the stack that the
run before it has left behind. -/
structure Loaded (r : Registry) (k : Knobs) (prog : Deterministic) (saved : Option (List (Frame Thread)))
    (s : SearchInfo) : Prop where
  cursor : s.cursor = 0
  ok : AllOk r k prog [] s.stack
  stack : saved = none ∧ s.stack = [] ∧ s.done = false ∨
    saved = some (s.stack.map frame) ∧ s.done = s.stack.isEmpty
  tip : ∀ S f, s.stack = S ++ [f] → ∃ t, Allowed r k prog (selected S) t ∧ t ∉ f.done

theorem explore_resumes (fuel : ℕ) {s : SearchInfo} {saved : Option (List (Frame Thread))} (known : prog.Known r k)
    (sound : Sound r.toIds k info) (deep : ∀ π, DepthFirst.Path (Allowed r k prog) π → π.length ≤ depth)
    (fuelled : depth < fuel) (loaded : Loaded r k prog saved s) (notDone : s.done = false)
    (wf : ∀ S ∈ saved, Wf (Allowed r k prog) [] S) :
    ∃ q S', Explorer.explore r.toIds k info prog run fuel
        { explored := .start prog run info, searchInfo := s, prefixSize := s.stack.length } = some q ∧
      Ran r k prog run info q S' ∧ Resumes (Allowed r k prog) (fun _ _ => k.por = true) saved (S'.map frame) := by
  have start : At r k prog run info (selected []) (.start prog run info) := ⟨.nil, rfl, follows_start _ _ _ _ _ sound⟩
  rcases loaded.stack with ⟨rfl, empty, _⟩ | ⟨rfl, done⟩
  · obtain ⟨q, S', went, ran, descends⟩ := explore_descends fuel (S := [])
      (p := { explored := .start prog run info, searchInfo := s, prefixSize := s.stack.length })
      known sound start deep (by simpa using fuelled) empty loaded.cursor (by simp [empty]) trivial .nil notDone rfl rfl
    exact ⟨q, S', went, ran, .fresh descends⟩
  · obtain ⟨S, f, stack⟩ : ∃ S f, s.stack = S ++ [f] := by
      rcases List.eq_nil_or_concat' s.stack with empty | ⟨S, f, stack⟩
      · simp [notDone, empty] at done
      · exact ⟨S, f, stack⟩
    have wf := wf _ rfl
    obtain ⟨t, allowed, undone⟩ := loaded.tip S f stack
    have oks := loaded.ok
    rw [stack, allOk_append] at oks
    rw [stack, List.map_append, wf_append] at wf
    have path : DepthFirst.Path (Allowed r k prog) (selected S) := wf.1.path .nil
    have short : S.length ≤ depth := by simpa [selected, steps] using deep _ path
    obtain ⟨fuel, rfl⟩ := Nat.exists_eq_add_of_le (show S.length + 1 ≤ fuel by omega)
    obtain ⟨explored, currNode, went, there⟩ := explore_prefix [] S (fuel + 1)
      (p := { explored := .start prog run info, searchInfo := s, prefixSize := s.stack.length })
      known start stack loaded.cursor (by simp [stack]) oks.1 wf.1
    have busy : explored.chess.currState.isTerminal = false :=
      there.isTerminal_iff.mpr ⟨t, allowed.enables known there.path⟩
    obtain ⟨fits, _⟩ : f.Ok r k prog (selected S) ∧ _ := oks.2
    have node? : SearchInfo.getNextNode { s with cursor := S.length } explored.chess.currState =
        some ({ s with cursor := S.length + 1 }, some S.length) := by
      have same : SearchInfo.checkDivergence f explored.chess.currState = true :=
        SearchInfo.checkDivergence_newNode there.follows.agree.symm
          (there.follows.agree.threads.nodup_iff.mp there.follows.distinct) fits.enabled
      simp [SearchInfo.getNextNode, stack, debugAssert_pos, same]
    have whole : S.length + (fuel + 1) = S.length + 1 + fuel := by omega
    obtain ⟨node, ok, kept, own, ⟨all, here, schedule, ran⟩ | ⟨u, next, enables, unmarked, later, ran⟩⟩ :=
      round_choose known sound
        (p := { explored, currNode, searchInfo := { s with cursor := S.length }, prefixSize := s.stack.length })
        there node? stack (Or.inl (by simp [stack])) fits.enabled (fun t => (fits.backtrack t).mp) fits.done
    · refine ⟨_, S, by rw [← whole, went]; exact explore_stops _ busy ran, ⟨Or.inr ⟨node, rfl, ok, all⟩, notDone, oks.1,
        schedule, rfl, by simpa using there.isTerminal_iff.mp busy, by simp⟩, ?_⟩
      rw [stack, List.map_append]
      refine .stuck allowed undone fun u allowed' other => by_contra fun off => ?_
      exact other (own (by simpa using off) u allowed' (all u (allowed'.enables known there.path)))
    · have allowed' : Allowed r k prog (selected S) u := by
        by_contra forbidden
        exact unmarked (ok.pruned u enables forbidden)
      have through : selected (S ++ [{ node with sel := some u }.addDone u]) = selected S ++ [u] := by
        simp [selected, steps, frame, addDone]
      obtain ⟨q, S', finish, ran', descends⟩ := explore_descends fuel
        (S := S ++ [{ node with sel := some u }.addDone u]) (p := {
          explored := next
          currNode := S.length
          searchInfo := { s with stack := S ++ [{ node with sel := some u }.addDone u], cursor := S.length + 1 }
          prefixSize := s.stack.length })
        known sound (through ▸ later) deep (by simp; omega) rfl (by simp) (by simp [stack])
        (allOk_append.mpr ⟨oks.1, by simpa [AllOk, addDone] using ok_select ok enables⟩) (through ▸ path.snoc allowed')
        notDone rfl rfl
      refine ⟨q, S', by rw [← whole, went]; exact (explore_goes _ busy ran).trans finish, ran', ?_⟩
      rw [stack, List.map_append]
      have sel : ({ node with sel := some u }.addDone u).frame.sel = u := rfl
      refine .retry (g := ({ node with sel := some u }.addDone u).frame) (sel ▸ allowed')
        (sel ▸ fun done => unmarked (kept u done)) (mem_addDone.mpr (Or.inr rfl))
        (fun v done => mem_addDone.mpr (Or.inl (kept v done))) (fun v allowed done => ?_) (by simpa using descends)
      rcases mem_addDone.mp done with old | rfl
      · by_cases on : k.por = true
        · exact Or.inr (Or.inr on)
        · exact Or.inl (own (by simpa using on) v allowed old)
      · exact Or.inr (Or.inl rfl)

theorem finished_iff_of_ok (ok : node.Ok r k prog π) :
    node.finished = true ↔ ∀ t, prog.Enables π t → t ∈ node.done := by
  rw [finished_iff]
  exact forall_congr' fun t => imp_congr_left (ok.backtrack t)

/-- What `UpdateForNext` leaves of the stack. -/
theorem settles_rdropWhile (known : prog.Known r k) (ok : AllOk r k prog [] S)
    (wf : Wf (Allowed r k prog) [] (S.map frame)) :
    Settles (Allowed r k prog) (S.map frame) ((S.rdropWhile SearchNode.finished).map frame) ∧
      AllOk r k prog [] (S.rdropWhile SearchNode.finished) ∧
      ∀ T f, S.rdropWhile SearchNode.finished = T ++ [f] → ∃ t, Allowed r k prog (selected T) t ∧ t ∉ f.done := by
  induction S using List.reverseRecOn with
  | nil => exact ⟨.keep _, trivial, by simp⟩
  | append_singleton S f ih =>
    have oks := ok
    rw [allOk_append] at oks
    rw [List.map_append, wf_append] at wf
    obtain ⟨fits, _⟩ : f.Ok r k prog (selected S) ∧ _ := oks.2
    have path := path_enables known (wf.1.path .nil)
    rw [List.rdropWhile_concat]
    by_cases finished : f.finished = true
    · rw [if_pos finished, List.map_append]
      obtain ⟨settles, ok', tip⟩ := ih oks.1 wf.1
      exact ⟨.drop (fun t allowed => (finished_iff_of_ok fits).mp finished t (allowed.enables known path)) settles,
        ok', tip⟩
    · rw [if_neg finished]
      refine ⟨.keep _, ok, fun T g same => ?_⟩
      obtain ⟨rfl, last⟩ := List.append_inj' same rfl
      cases last
      rw [finished_iff_of_ok fits] at finished
      push Not at finished
      obtain ⟨t, enables, undone⟩ := finished
      exact ⟨t, by_contra fun forbidden => undone (fits.pruned t enables forbidden), undone⟩

theorem savable_of_ok (known : prog.Known r k) (ok : node.Ok r k prog π) (sel : node.sel.isSome)
    (enables : prog.Enables π node.frame.sel) : SearchInfo.Savable r node := by
  have distinct : State.Distinct { enabled := prog.enabled 0 π } := prog.distinct 0 π
  have stored {t : Thread} (enables : prog.Enables π t) : ∃ info, node.enabled[t]? = some info := by
    obtain ⟨a, listed, same⟩ := enables
    exact ⟨.ofAction a, by
      rw [ok.enabled, SearchInfo.getElem?_newNode distinct, distinct.findEnabled_iff.mpr ⟨listed, same⟩]
      rfl⟩
  obtain ⟨t, chosen⟩ := Option.isSome_iff_exists.mp sel
  simp only [frame, chosen, Option.getD_some] at enables
  obtain ⟨info, found⟩ := stored enables
  refine ⟨⟨t, info, chosen, found⟩, fun u member => stored ((ok.backtrack u).mp member),
    fun u member => stored (ok.done u member), fun u info found => ?_⟩
  rw [ok.enabled, SearchInfo.getElem?_newNode distinct] at found
  obtain ⟨a, here, rfl⟩ := Option.map_eq_some_iff.mp found
  obtain ⟨listed, rfl⟩ := distinct.findEnabled_iff.mp here
  exact ⟨rfl, known.named π a listed⟩

theorem savable_of_allOk (known : prog.Known r k) (path : DepthFirst.Path (Allowed r k prog) π)
    (ok : AllOk r k prog π S) (wf : Wf (Allowed r k prog) π (S.map frame)) :
    ∀ node ∈ S, SearchInfo.Savable r node := by
  induction S generalizing π with
  | nil => simp
  | cons f rest ih =>
    obtain ⟨fits, sel, ok⟩ := ok
    obtain ⟨allowed, _, wf⟩ := wf
    rw [List.forall_mem_cons]
    exact ⟨savable_of_ok known fits sel (allowed.enables known (path_enables known path)),
      ih (path.snoc allowed) ok wf⟩

end Explorer

namespace SearchDisk
open Explored Explorer SearchNode DepthFirst

variable {r : Registry} {k : Knobs} {prog : Deterministic} {depth steps : ℕ} {disk next : SearchDisk}
  {p : Explorer} {V : List (List Thread)} {saved : Option (List (Frame Thread))}

/-- The files between two runs. -/
structure Good (r : Registry) (k : Knobs) (prog : Deterministic) (disk : SearchDisk)
    (saved : Option (List (Frame Thread))) : Prop where
  search : ∃ s, SearchInfo.load r disk.search = some s ∧ Loaded r k prog saved s
  por : Sound r.toIds k disk.por

theorem good_empty (r : Registry) (k : Knobs) (prog : Deterministic) : Good r k prog {} none where
  search := ⟨{}, rfl, rfl, trivial, Or.inl ⟨rfl, rfl, rfl⟩, by simp⟩
  por := sound_empty r k

/-- One process: the run it makes, and the files that it leaves behind. -/
theorem process_spec (run : ℕ) {s : SearchInfo} (known : prog.Known r k)
    (deep : ∀ π, DepthFirst.Path (Allowed r k prog) π → π.length ≤ depth) (fuelled : depth < steps)
    (sound : Sound r.toIds k disk.por) (found : SearchInfo.load r disk.search = some s)
    (loaded : Loaded r k prog saved s) (notDone : s.done = false) (wf : ∀ S ∈ saved, Wf (Allowed r k prog) [] S) :
    ∃ p next S T, start r prog run disk =
        some (some { explored := .start prog run disk.por, searchInfo := s, prefixSize := s.stack.length }) ∧
      Explorer.explore r.toIds k disk.por prog run steps
        { explored := .start prog run disk.por, searchInfo := s, prefixSize := s.stack.length } = some p ∧
      disk.programExit r.toIds k p = some next ∧ Ran r k prog run disk.por p S ∧
      Resumes (Allowed r k prog) (fun _ _ => k.por = true) saved (S.map frame) ∧
      Settles (Allowed r k prog) (S.map frame) T ∧ Good r k prog next (some T) := by
  obtain ⟨p, S, went, ran, resumes⟩ := explore_resumes steps known sound deep fuelled loaded notDone wf
  have wf := resumes.wf wf
  obtain ⟨settles, ok, tip⟩ := settles_rdropWhile known ran.ok wf
  have dropped : p.searchInfo.stack.rdropWhile SearchNode.finished = S.rdropWhile SearchNode.finished := by
    rcases ran.rest with same | ⟨node, same, fits, all⟩
    · rw [same]
    · rw [same, List.rdropWhile_concat, if_pos ((finished_iff_of_ok fits).mpr all)]
  have savable : ∀ node ∈ p.searchInfo.updateForNext.stack, SearchInfo.Savable r node := by
    rw [SearchInfo.updateForNext, dropped]
    exact savable_of_allOk known .nil ok (settles.spec wf).1
  obtain ⟨proto, saves, loads⟩ := SearchInfo.load_save savable
  refine ⟨p, { search := proto, por := if k.por && !p.divergence && !p.useless then
      ChessScheduler.porSave disk.por p.explored.chess else disk.por }, S, _, ?_, went, ?_, ran, resumes, settles,
    ⟨⟨_, loads, rfl, ?_, Or.inr ⟨?_, ?_⟩, ?_⟩, fun on => ?_⟩⟩
  · simp [start, found, notDone]
  · simp [programExit, ran.converges, saves]
  · simpa [SearchInfo.updateForNext, dropped] using ok
  · simp [SearchInfo.updateForNext, dropped]
  · simp [SearchInfo.updateForNext, dropped, ran.notDone]
  · simpa [SearchInfo.updateForNext, dropped] using tip
  · cases useless : p.useless with
    | true => simpa [useless] using sound on
    | false =>
      have stored := ((ran.here useless).follows.consistent on).exit {}
      simpa [on, useless, ran.converges, PorRun.start] using stored.stored

/-- All the runs from what is on disk. -/
theorem searchFrom_spec (known : prog.Known r k) (terminates : prog.Terminates)
    (deep : ∀ π, DepthFirst.Path (Allowed r k prog) π → π.length ≤ depth) (fuelled : depth < steps)
    (runs run : ℕ) (good : Good r k prog disk saved) (searched : Searched (Allowed r k prog) V saved)
    (complete : k.por = false → Complete (Allowed r k prog) V saved)
    (few : (openLeaves (Allowed r k prog) saved).ncard < runs) :
    ∃ results, searchFrom r k prog steps runs run disk = some results ∧
      (V ++ results.map (·.explored.schedule)).Nodup ∧
      (∀ p ∈ results, p.divergence = false ∧ DepthFirst.Path (Allowed r k prog) p.explored.schedule ∧
        (p.useless = true ↔ ∃ t, prog.Enables p.explored.schedule t)) ∧
      (k.por = false → ∀ σ, σ ∈ V ++ results.map (·.explored.schedule) ↔ Leaf (Allowed r k prog) σ) := by
  induction runs generalizing run disk saved V with
  | zero => omega
  | succ runs ih =>
    obtain ⟨s, found, loaded⟩ := good.search
    cases done : s.done with
    | true =>
      refine ⟨[], by simp [searchFrom, start, found, done], by simpa using searched.distinct, by simp, fun off σ => ?_⟩
      rcases loaded.stack with ⟨_, _, notDone⟩ | ⟨rfl, empty⟩
      · simp [done] at notDone
      · rw [done, eq_comm, List.isEmpty_iff] at empty
        rw [empty] at complete
        simpa using (complete off).mem_iff
    | false =>
      obtain ⟨p, next, S, T, started, went, exited, ran, resumes, settles, good⟩ :=
        process_spec run known deep fuelled good.por found loaded done searched.wf
      obtain ⟨searched', fewer⟩ := searched.resume (finite_allowed known terminates) resumes settles
      obtain ⟨results, later, distinct, each, all⟩ := ih (run + 1) good searched' (fun off => by
        refine (complete off).resume searched ?_ settles
        simpa [off] using resumes) (by omega)
      refine ⟨p :: results, ?_, ?_, ?_, fun off σ => ?_⟩
      · simp [searchFrom, started, went, exited, later]
      · simpa [ran.schedule] using distinct
      · rw [List.forall_mem_cons]
        refine ⟨⟨ran.converges, ?_, ?_⟩, each⟩
        · rw [ran.schedule]
          exact (resumes.wf searched.wf).path .nil
        · rw [ran.schedule]
          exact ran.useless
      · rw [← all off σ]
        simp [ran.schedule]

theorem exists_bound (known : prog.Known r k) (terminates : prog.Terminates) :
    ∃ bound, ∀ runs ≥ bound, ∀ steps ≥ bound, ∃ results, searchFrom r k prog steps runs 0 {} = some results ∧
      (results.map (·.explored.schedule)).Nodup ∧
      (∀ p ∈ results, p.divergence = false ∧ DepthFirst.Path (Allowed r k prog) p.explored.schedule ∧
        (p.useless = true ↔ ∃ t, prog.Enables p.explored.schedule t)) ∧
      (k.por = false → ∀ σ, σ ∈ results.map (·.explored.schedule) ↔ Leaf (Allowed r k prog) σ) := by
  obtain ⟨depth, deep⟩ := (finite_allowed known terminates).exists_depth
  refine ⟨max depth (openLeaves (Allowed r k prog) none).ncard + 1, fun runs many steps long => ?_⟩
  exact searchFrom_spec known terminates deep (by omega) runs 0 (good_empty r k prog) searched_none
    (fun _ => complete_none) (by omega)

/-- The runs that are not useless, without partial order reduction. -/
theorem exists_bound_useful (known : prog.Known r k) (terminates : prog.Terminates) (off : k.por = false) :
    ∃ bound, ∀ runs ≥ bound, ∀ steps ≥ bound, ∃ results, searchFrom r k prog steps runs 0 {} = some results ∧
      (∀ p ∈ results, p.divergence = false) ∧ ((results.filter (!·.useless)).map (·.explored.schedule)).Nodup ∧
      ∀ σ, σ ∈ (results.filter (!·.useless)).map (·.explored.schedule) ↔
        DepthFirst.Path (Allowed r k prog) σ ∧ ∀ t, ¬ prog.Enables σ t := by
  obtain ⟨bound, searched⟩ := exists_bound known terminates
  refine ⟨bound, fun runs many steps long => ?_⟩
  obtain ⟨results, ran, distinct, each, all⟩ := searched runs many steps long
  refine ⟨results, ran, fun p listed => (each p listed).1, distinct.sublist (List.filter_sublist.map _), fun σ => ?_⟩
  have leaf_iff := all off σ
  rw [List.mem_map] at leaf_iff ⊢
  constructor
  · rintro ⟨p, member, rfl⟩
    obtain ⟨listed, useful⟩ := List.mem_filter.mp member
    obtain ⟨_, path, useless⟩ := each p listed
    refine ⟨path, fun t enables => ?_⟩
    simp [useless.mpr ⟨t, enables⟩] at useful
  · rintro ⟨path, ends⟩
    obtain ⟨p, listed, rfl⟩ := leaf_iff.mpr ⟨path, fun t allowed => ends t (allowed.enables known (path_enables known path))⟩
    refine ⟨p, List.mem_filter.mpr ⟨listed, ?_⟩, rfl⟩
    rw [Bool.not_eq_true', ← Bool.not_eq_true, (each p listed).2.2]
    rintro ⟨t, enables⟩
    exact ends t enables

end SearchDisk

open Explored in
/-- The search of a deterministic program that terminates gets to an end, under any knobs.
No run diverges, and no two runs take the same schedule: a run that is not useless ends the
program, and one that is useless has been left without a thread that may be chosen. -/
theorem search_never_repeats {r : Registry} {k : Knobs} {prog : Deterministic} (known : prog.Known r k)
    (terminates : prog.Terminates) : ∃ bound, ∀ runs ≥ bound, ∀ steps ≥ bound, ∃ results,
      SearchDisk.searchFrom r k prog steps runs 0 {} = some results ∧
      (results.map (·.explored.schedule)).Nodup ∧
      ∀ p ∈ results, p.divergence = false ∧ DepthFirst.Path (Allowed r k prog) p.explored.schedule ∧
        (p.useless = true ↔ ∃ t, prog.Enables p.explored.schedule t) := by
  obtain ⟨bound, searched⟩ := SearchDisk.exists_bound known terminates
  refine ⟨bound, fun runs many steps long => ?_⟩
  obtain ⟨results, ran, distinct, each, _⟩ := searched runs many steps long
  exact ⟨results, ran, distinct, each⟩

open Explored in
/-- Without partial order reduction the runs that are not useless are the complete schedules
that the fair control and the preemption bound allow, each of them once. -/
theorem search_exhaustive {r : Registry} {k : Knobs} {prog : Deterministic} (known : prog.Known r k)
    (terminates : prog.Terminates) (off : k.por = false) : ∃ bound, ∀ runs ≥ bound, ∀ steps ≥ bound, ∃ results,
      SearchDisk.searchFrom r k prog steps runs 0 {} = some results ∧
      ((results.filter (!·.useless)).map (·.explored.schedule)).Nodup ∧
      ∀ σ, σ ∈ (results.filter (!·.useless)).map (·.explored.schedule) ↔
        DepthFirst.Path (Allowed r k prog) σ ∧ ∀ t, ¬ prog.Enables σ t := by
  obtain ⟨bound, searched⟩ := SearchDisk.exists_bound_useful known terminates off
  refine ⟨bound, fun runs many steps long => ?_⟩
  obtain ⟨results, ran, -, distinct, all⟩ := searched runs many steps long
  exact ⟨results, ran, distinct, all⟩

open Explored in
/-- Repeated from an empty database, such a search comes to its end without a diverging run,
and lists the complete schedules that are allowed. -/
theorem search_lists_schedules {r : Registry} {k : Knobs} {prog : Deterministic} (known : prog.Known r k)
    (terminates : prog.Terminates) (off : k.por = false) : ∃ bound, ∀ runs ≥ bound, ∀ steps ≥ bound, ∃ results,
      SearchDisk.searchFrom r k prog steps runs 0 {} = some results ∧ (∀ p ∈ results, p.divergence = false) ∧
      ((results.filter (!·.useless)).map (·.explored.schedule)).Nodup ∧
      ∀ σ, σ ∈ (results.filter (!·.useless)).map (·.explored.schedule) ↔
        DepthFirst.Path (Allowed r k prog) σ ∧ ∀ t, ¬ prog.Enables σ t :=
  SearchDisk.exists_bound_useful known terminates off

/-- Two threads with one access each, whose addresses are ordered differently in every other run. -/
def pairProgram : Deterministic where
  enabled n σ := ((if n % 2 = 0 then [1, 2] else [2, 1]).filter (· ∉ σ)).map fun t =>
    { thd := t, obj := some 5, op := .memWrite, inst := some 0 }
  distinct n σ := by
    rw [List.map_map]
    simp only [Function.comp_def, List.map_id']
    refine List.Nodup.filter _ ?_
    split <;> decide
  same n σ := by
    refine List.Perm.map _ (List.Perm.filter _ ?_)
    split
    · rfl
    · exact List.Perm.swap 1 2 []

def plainRegistry : Registry where
  thd := BitVec.ofNat 32
  obj := BitVec.ofNat 32
  inst := BitVec.ofNat 32
  findThread uid := some uid.toNat
  findObject uid := some uid.toNat
  findInst id := some id.toNat

theorem pairProgram_enables {σ : List Thread} {t : Thread} :
    pairProgram.Enables σ t ↔ (t = 1 ∨ t = 2) ∧ t ∉ σ := by
  simp [Deterministic.Enables, pairProgram]

theorem pairProgram_terminates : pairProgram.Terminates := by
  intro f
  by_contra forever
  push Not at forever
  have first := pairProgram_enables.mp (forever 0)
  have second := pairProgram_enables.mp (forever 1)
  have third := pairProgram_enables.mp (forever 2)
  simp only [List.range_succ, List.range_zero, List.map_append, List.map_cons, List.map_nil, List.mem_append,
    List.mem_singleton, List.not_mem_nil, List.nil_append] at first second third
  grind

theorem pairProgram_known (k : Knobs) : pairProgram.Known plainRegistry k where
  named σ a listed := by
    obtain ⟨t, chosen, rfl⟩ := List.mem_map.mp listed
    have small : t = 1 ∨ t = 2 := by simpa using (List.mem_filter.mp chosen).1
    refine ⟨?_, ?_, ?_⟩
    · rcases small with rfl | rfl <;> decide
    · rintro o ⟨⟩
      decide
    · rintro i ⟨⟩
      decide
  hashable _ σ a listed := by
    obtain ⟨t, _, rfl⟩ := List.mem_map.mp listed
    simp [Por.Hashable]

theorem search_never_repeats_pair : ∃ bound, ∀ runs ≥ bound, ∀ steps ≥ bound, ∃ results,
    SearchDisk.searchFrom plainRegistry {} pairProgram steps runs 0 {} = some results ∧
      (results.map (·.explored.schedule)).Nodup := by
  obtain ⟨bound, searched⟩ := search_never_repeats (pairProgram_known {}) pairProgram_terminates
  refine ⟨bound, fun runs many steps long => ?_⟩
  obtain ⟨results, ran, distinct, _⟩ := searched runs many steps long
  exact ⟨results, ran, distinct⟩

theorem search_lists_schedules_pair : ∃ bound, ∀ runs ≥ bound, ∀ steps ≥ bound, ∃ results,
    SearchDisk.searchFrom plainRegistry { por := false, pbLimit := 0 } pairProgram steps runs 0 {} = some results ∧
      (∀ p ∈ results, p.divergence = false) ∧
      ∀ σ, σ ∈ (results.filter (!·.useless)).map (·.explored.schedule) ↔
        DepthFirst.Path (Explored.Allowed plainRegistry { por := false, pbLimit := 0 } pairProgram) σ ∧
          ∀ t, ¬ pairProgram.Enables σ t := by
  obtain ⟨bound, searched⟩ :=
    search_lists_schedules (pairProgram_known { por := false, pbLimit := 0 }) pairProgram_terminates rfl
  refine ⟨bound, fun runs many steps long => ?_⟩
  obtain ⟨results, ran, converge, _, all⟩ := searched runs many steps long
  exact ⟨results, ran, converge, all⟩

theorem search_exhaustive_pair : ∃ bound, ∀ runs ≥ bound, ∀ steps ≥ bound, ∃ results,
    SearchDisk.searchFrom plainRegistry { por := false } pairProgram steps runs 0 {} = some results ∧
      ∀ σ, σ ∈ (results.filter (!·.useless)).map (·.explored.schedule) ↔
        DepthFirst.Path (Explored.Allowed plainRegistry { por := false } pairProgram) σ ∧
          ∀ t, ¬ pairProgram.Enables σ t := by
  obtain ⟨bound, searched⟩ := search_exhaustive (pairProgram_known { por := false }) pairProgram_terminates rfl
  refine ⟨bound, fun runs many steps long => ?_⟩
  obtain ⟨results, ran, _, all⟩ := searched runs many steps long
  exact ⟨results, ran, all⟩

end Maple.Systematic
