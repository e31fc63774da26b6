import Mathlib

/-! Runs of a partial, output-producing transition function over a list of
events. A step that returns `none` is a failed assertion or a null dereference;
the rules below establish that no step fails and what every step puts out. `Reach`
is the same for a system whose steps are guarded by a protocol. -/
namespace Runs
variable {S E O : Type}

/-- The outputs of a run are aligned with its events. -/
def run (step : S → E → Option (S × O)) : S → List E → Option (S × List O)
  | s, [] => some (s, [])
  | s, e :: rest => do
    let (next, out) ← step s e
    let (last, outs) ← run step next rest
    return (last, out :: outs)

variable {step : S → E → Option (S × O)}

theorem run_cons {s next last : S} {e : E} {rest : List E} {out : O} {outs : List O}
    (stepped : step s e = some (next, out)) (ran : run step next rest = some (last, outs)) :
    run step s (e :: rest) = some (last, out :: outs) := by
  simp [run, stepped, ran]

theorem run_cons_inv {s last : S} {e : E} {rest : List E} {outs : List O}
    (ran : run step s (e :: rest) = some (last, outs)) :
    ∃ next out tail, step s e = some (next, out) ∧ run step next rest = some (last, tail) ∧
      outs = out :: tail := by
  simp only [run, Option.bind_eq_bind, Option.bind_eq_some_iff] at ran
  obtain ⟨⟨next, out⟩, stepped, ⟨final, tail⟩, rest_ran, emitted⟩ := ran
  cases Option.some.inj emitted
  exact ⟨next, out, tail, stepped, rest_ran, rfl⟩

theorem run_append {s middle last : S} {first rest : List E} {outs tail : List O}
    (ran : run step s first = some (middle, outs)) (continued : run step middle rest = some (last, tail)) :
    run step s (first ++ rest) = some (last, outs ++ tail) := by
  induction first generalizing s outs with
  | nil =>
    cases ran
    exact continued
  | cons e first ih =>
    obtain ⟨next, out, later, stepped, rest_ran, rfl⟩ := run_cons_inv ran
    exact run_cons stepped (ih rest_ran)

theorem run_append_inv {s last : S} {first rest : List E} {outs : List O}
    (ran : run step s (first ++ rest) = some (last, outs)) :
    ∃ middle head tail, run step s first = some (middle, head) ∧
      run step middle rest = some (last, tail) ∧ outs = head ++ tail := by
  induction first generalizing s outs with
  | nil => exact ⟨s, [], outs, rfl, ran, rfl⟩
  | cons e first ih =>
    obtain ⟨next, out, later, stepped, continued, rfl⟩ := run_cons_inv ran
    obtain ⟨middle, head, tail, reached, finished, rfl⟩ := ih continued
    exact ⟨middle, out :: head, tail, run_cons stepped reached, finished, rfl⟩

/-- One step inside a run. -/
theorem run_at {tr : List E} {n : ℕ} {e : E} (here : tr[n]? = some e) {s last : S} {outs : List O}
    (ran : run step s tr = some (last, outs)) :
    ∃ d before next out, run step s (tr.take n) = some (d, before) ∧ step d e = some (next, out) ∧
      run step s (tr.take (n + 1)) = some (next, before ++ [out]) ∧ outs[n]? = some out := by
  induction tr generalizing s n outs with
  | nil => simp at here
  | cons first rest ih =>
    obtain ⟨middle, out, tail, stepped, continued, rfl⟩ := run_cons_inv ran
    cases n with
    | zero =>
      simp only [List.getElem?_cons_zero, Option.some.injEq] at here
      subst here
      exact ⟨s, [], middle, out, rfl, stepped, run_cons stepped rfl, rfl⟩
    | succ n =>
      obtain ⟨d, before, next, out', reached, taken, through, found⟩ := ih (by simpa using here) continued
      exact ⟨d, out :: before, next, out', run_cons stepped reached, taken, run_cons stepped through,
        by simpa using found⟩

/-- An indexed invariant of the steps that succeed. -/
theorem run_take (Inv : ℕ → S → Prop) {tr : List E} {s : S} (initial : Inv 0 s)
    (preserved : ∀ n s e next out, tr[n]? = some e → Inv n s → step s e = some (next, out) →
      Inv (n + 1) next) {n : ℕ} (bound : n ≤ tr.length) {last : S} {outs : List O}
    (ran : run step s (tr.take n) = some (last, outs)) : Inv n last := by
  induction n generalizing last outs with
  | zero =>
    cases ran
    exact initial
  | succ n ih =>
    have here := List.getElem?_eq_getElem (Nat.lt_of_succ_le bound)
    rw [List.take_add_one, here] at ran
    obtain ⟨middle, head, tail, reached, continued, _⟩ := run_append_inv ran
    obtain ⟨next, out, _, stepped, ended, _⟩ := run_cons_inv continued
    cases ended
    exact preserved n middle _ last out here (ih (Nat.le_of_succ_le bound) reached) stepped

/-- An indexed invariant that every event of the trace extends makes the whole
run succeed; the outputs satisfy whatever each step guarantees of them. -/
theorem run_from (Inv : ℕ → S → Prop) (Good : ℕ → O → Prop) (tr : List E)
    (preserves : ∀ n s e, tr[n]? = some e → Inv n s →
      ∃ next out, step s e = some (next, out) ∧ Inv (n + 1) next ∧ Good n out)
    (rest : List E) (n : ℕ) (s : S) (suffix : tr.drop n = rest) (initial : Inv n s) :
    ∃ last outs, run step s rest = some (last, outs) ∧ Inv (n + rest.length) last ∧
      outs.length = rest.length ∧ ∀ k out, outs[k]? = some out → Good (n + k) out := by
  induction rest generalizing n s with
  | nil => exact ⟨s, [], rfl, initial, rfl, by simp⟩
  | cons e rest ih =>
    have here : tr[n]? = some e := by
      rw [← List.head?_drop, suffix, List.head?_cons]
    obtain ⟨next, out, stepped, inv, good⟩ := preserves n s e here initial
    have tail : tr.drop (n + 1) = rest := by
      rw [← List.tail_drop, suffix, List.tail_cons]
    obtain ⟨last, outs, ran, final, length, goods⟩ := ih (n + 1) next tail inv
    refine ⟨last, out :: outs, run_cons stepped ran, ?_, by simp [length], ?_⟩
    · simpa only [List.length_cons, Nat.add_assoc, Nat.add_comm 1] using final
    · intro k o member
      cases k with
      | zero => simp_all
      | succ k =>
        have later := goods k o (by simpa using member)
        simpa only [Nat.add_assoc, Nat.add_comm 1] using later

theorem run_invariant (Inv : ℕ → S → Prop) (Good : ℕ → O → Prop) (tr : List E)
    (preserves : ∀ n s e, tr[n]? = some e → Inv n s →
      ∃ next out, step s e = some (next, out) ∧ Inv (n + 1) next ∧ Good n out)
    (s : S) (initial : Inv 0 s) :
    ∃ last outs, run step s tr = some (last, outs) ∧ Inv tr.length last ∧
      outs.length = tr.length ∧ ∀ n out, outs[n]? = some out → Good n out := by
  simpa using run_from Inv Good tr preserves tr 0 s rfl initial

/-- The same for steps without output. -/
theorem foldlM_invariant {step : S → E → Option S} (Inv : ℕ → S → Prop) (tr : List E)
    (preserves : ∀ n s e, tr[n]? = some e → Inv n s → ∃ next, step s e = some next ∧ Inv (n + 1) next)
    (s : S) (initial : Inv 0 s) : ∃ last, tr.foldlM step s = some last ∧ Inv tr.length last := by
  have from_suffix : ∀ (rest : List E) n s, tr.drop n = rest → Inv n s →
      ∃ last, rest.foldlM step s = some last ∧ Inv (n + rest.length) last := by
    intro rest
    induction rest with
    | nil => exact fun n s _ inv => ⟨s, rfl, inv⟩
    | cons e rest ih =>
      intro n s suffix inv
      have here : tr[n]? = some e := by
        rw [← List.head?_drop, suffix, List.head?_cons]
      have tail : tr.drop (n + 1) = rest := by
        rw [← List.tail_drop, suffix, List.tail_cons]
      obtain ⟨next, stepped, inv⟩ := preserves n s e here inv
      obtain ⟨last, ran, final⟩ := ih (n + 1) next tail inv
      refine ⟨last, by simp [stepped, ran], ?_⟩
      simpa only [List.length_cons, Nat.add_assoc, Nat.add_comm 1] using final
  simpa using from_suffix tr 0 s rfl initial

/-- An invariant of the events that were folded over. -/
theorem foldlM_prefix {step : S → E → Option S} (Inv : List E → S → Prop) (tr : List E)
    (preserves : ∀ done s e rest, tr = done ++ e :: rest → Inv done s →
      ∃ next, step s e = some next ∧ Inv (done ++ [e]) next)
    (s : S) (initial : Inv [] s) : ∃ last, tr.foldlM step s = some last ∧ Inv tr last := by
  have folded := foldlM_invariant (fun n s => Inv (tr.take n) s) tr (by
    intro n s e here inv
    obtain ⟨bound, rfl⟩ := List.getElem?_eq_some_iff.mp here
    rw [List.take_succ_eq_append_getElem bound]
    apply preserves _ s _ (tr.drop (n + 1)) _ inv
    rw [← List.drop_eq_getElem_cons bound, List.take_append_drop]) s initial
  simpa using folded

/-- A loop that never fails collects one result for each element, in their order. -/
theorem mapM_some {A B : Type} {f : A → Option B} {l : List A} (all : ∀ a ∈ l, ∃ b, f a = some b) :
    ∃ bs, l.mapM f = some bs ∧ (∀ b, b ∈ bs ↔ ∃ a ∈ l, f a = some b) ∧
      ∀ R : B → B → Prop, (l.Pairwise fun a a' => ∀ b b', f a = some b → f a' = some b' → R b b') → bs.Pairwise R := by
  induction l with
  | nil => exact ⟨[], rfl, by simp, fun _ _ => List.Pairwise.nil⟩
  | cons a l ih =>
    obtain ⟨⟨b, here⟩, rest⟩ := List.forall_mem_cons.mp all
    obtain ⟨bs, ran, members, pairwise⟩ := ih rest
    refine ⟨b :: bs, by simp [here, ran], fun b' => ?_, fun R related => ?_⟩
    · rw [List.mem_cons, members, List.exists_mem_cons_iff, here, Option.some.injEq, eq_comm]
    · obtain ⟨behind, related⟩ := List.pairwise_cons.mp related
      refine List.pairwise_cons.mpr ⟨fun b' member => ?_, pairwise R related⟩
      obtain ⟨a', listed, found⟩ := (members b').mp member
      exact behind a' listed b b' here found

theorem rel_mono {α α' : Type} {R Q : α → α' → Prop} {x : Option α} {x' : Option α'} (related : Option.Rel R x x')
    (weaker : ∀ a a', R a a' → Q a a') : Option.Rel Q x x' := by
  cases related with
  | some both => exact .some (weaker _ _ both)
  | none => exact .none

/-- Two computations that fail together, continued. -/
theorem rel_bind {α α' β β' : Type} {R : α → α' → Prop} {Q : β → β' → Prop} {x : Option α} {x' : Option α'}
    {f : α → Option β} {f' : α' → Option β'} (related : Option.Rel R x x')
    (continued : ∀ a a', R a a' → Option.Rel Q (f a) (f' a')) : Option.Rel Q (x.bind f) (x'.bind f') := by
  cases related with
  | some both => exact continued _ _ both
  | none => exact .none

section Related
variable {S' O' : Type} {step' : S' → E → Option (S' × O')}

theorem related_from (R : ℕ → S → S' → Prop) (Good : O → O' → Prop) (tr : List E)
    (preserves : ∀ n s s' e, tr[n]? = some e → R n s s' →
      Option.Rel (fun r r' => R (n + 1) r.1 r'.1 ∧ Good r.2 r'.2) (step s e) (step' s' e))
    (rest : List E) (n : ℕ) (s : S) (s' : S') (suffix : tr.drop n = rest) (initial : R n s s') :
    Option.Rel (fun r r' => R (n + rest.length) r.1 r'.1 ∧ List.Forall₂ Good r.2 r'.2)
      (run step s rest) (run step' s' rest) := by
  induction rest generalizing n s s' with
  | nil => exact .some ⟨initial, .nil⟩
  | cons e rest ih =>
    have here : tr[n]? = some e := by
      rw [← List.head?_drop, suffix, List.head?_cons]
    have tail : tr.drop (n + 1) = rest := by
      rw [← List.tail_drop, suffix, List.tail_cons]
    have stepped := preserves n s s' e here initial
    generalize first : step s e = r at stepped
    generalize second : step' s' e = r' at stepped
    cases stepped with
    | none =>
      simp only [run, first, second, Option.bind_eq_bind, Option.bind_none]
      exact .none
    | @some r r' both =>
      have later := ih (n + 1) r.1 r'.1 tail both.1
      simp only [run, first, second, Option.bind_eq_bind, Option.bind_some, Option.pure_def]
      generalize run step r.1 rest = last at later
      generalize run step' r'.1 rest = last' at later
      cases later with
      | none => exact .none
      | some final =>
        refine .some ⟨?_, .cons both.2 final.2⟩
        simpa only [List.length_cons, Nat.add_assoc, Nat.add_comm 1] using final.1

/-- Two machines that stay related, or fail together, at every event. -/
theorem run_related (R : ℕ → S → S' → Prop) (Good : O → O' → Prop) (tr : List E)
    (preserves : ∀ n s s' e, tr[n]? = some e → R n s s' →
      Option.Rel (fun r r' => R (n + 1) r.1 r'.1 ∧ Good r.2 r'.2) (step s e) (step' s' e))
    (s : S) (s' : S') (initial : R 0 s s') :
    Option.Rel (fun r r' => R tr.length r.1 r'.1 ∧ List.Forall₂ Good r.2 r'.2)
      (run step s tr) (run step' s' tr) := by
  simpa using related_from R Good tr preserves tr 0 s s' rfl initial

/-- Two systems that put out the same. -/
theorem outputs_eq {step' : S' → E → Option (S' × O)} (R : ℕ → S → S' → Prop) (tr : List E)
    (preserves : ∀ n s s' e, tr[n]? = some e → R n s s' →
      Option.Rel (fun r r' => R (n + 1) r.1 r'.1 ∧ r.2 = r'.2) (step s e) (step' s' e))
    (s : S) (s' : S') (initial : R 0 s s') :
    (run step s tr).map Prod.snd = (run step' s' tr).map Prod.snd := by
  have ran := run_related R Eq tr preserves s s' initial
  generalize run step s tr = last at ran
  generalize run step' s' tr = last' at ran
  cases ran with
  | some both => exact congrArg some (List.forall₂_eq_eq_eq ▸ both.2)
  | none => rfl

end Related

/-- Every step of the run meets a condition on its state and event. -/
def Along (step : S → E → Option (S × O)) (cond : S → E → Prop) : S → List E → Prop
  | _, [] => True
  | s, e :: rest => cond s e ∧ match step s e with
    | none => True
    | some (next, _) => Along step cond next rest

theorem along_at {cond : S → E → Prop} {tr : List E} {n : ℕ} {s d : S} {outs : List O} {e : E}
    (along : Along step cond s tr) (ran : run step s (tr.take n) = some (d, outs))
    (here : tr[n]? = some e) : cond d e := by
  induction tr generalizing s n outs with
  | nil => simp at here
  | cons first rest ih =>
    cases n with
    | zero =>
      simp only [List.take_zero, run, Option.some.injEq, Prod.mk.injEq] at ran
      simp only [List.getElem?_cons_zero, Option.some.injEq] at here
      exact ran.1 ▸ here ▸ along.1
    | succ n =>
      obtain ⟨next, out, tail, stepped, continued, _⟩ := run_cons_inv (by simpa using ran)
      have later := along.2
      rw [stepped] at later
      exact ih later continued (by simpa using here)

theorem along_of_mem {cond : S → E → Prop} {tr : List E} (always : ∀ e ∈ tr, ∀ s, cond s e) (s : S) :
    Along step cond s tr := by
  induction tr generalizing s with
  | nil => trivial
  | cons e rest ih =>
    obtain ⟨first, others⟩ := List.forall_mem_cons.mp always
    refine ⟨first s, ?_⟩
    split
    · trivial
    · exact ih others _

theorem along_of_forall {cond : S → E → Prop} (always : ∀ s e, cond s e) (s : S) (tr : List E) :
    Along step cond s tr :=
  along_of_mem (fun e _ s => always s e) s

instance decidableAlong (cond : S → E → Prop) [∀ s e, Decidable (cond s e)] :
    ∀ (tr : List E) (s : S), Decidable (Along step cond s tr)
  | [], _ => .isTrue trivial
  | e :: rest, s =>
    match stepped : step s e with
    | none => decidable_of_iff (cond s e) (by simp [Along, stepped])
    | some (next, _) =>
      have := decidableAlong cond rest next
      decidable_of_iff (cond s e ∧ Along step cond next rest) (by simp [Along, stepped])

section At
variable {tr : List E} {start s next : S} {n m : ℕ} {e : E} {out : O} {cond : S → E → Prop}

/-- The state behind the first `n` events. -/
def At (step : S → E → Option (S × O)) (start : S) (tr : List E) (n : ℕ) (s : S) : Prop :=
  ∃ outs, run step start (tr.take n) = some (s, outs)

theorem at_zero : At step start tr 0 start := ⟨[], rfl⟩

theorem At.unique (first : At step start tr n s) (second : At step start tr n next) : s = next := by
  obtain ⟨outs, ran⟩ := first
  obtain ⟨outs', ran'⟩ := second
  exact congrArg Prod.fst (Option.some.inj (ran.symm.trans ran'))

theorem At.succ (reached : At step start tr n s) (here : tr[n]? = some e) (stepped : step s e = some (next, out)) :
    At step start tr (n + 1) next := by
  obtain ⟨outs, ran⟩ := reached
  refine ⟨outs ++ [out], ?_⟩
  rw [List.take_add_one, here]
  exact run_append ran (run_cons stepped rfl)

theorem At.last (beyond : tr[n]? = none) (reached : At step start tr (n + 1) s) : At step start tr n s := by
  obtain ⟨outs, ran⟩ := reached
  rw [List.take_add_one, beyond, Option.toList_none, List.append_nil] at ran
  exact ⟨outs, ran⟩

theorem At.inv (reached : At step start tr (n + 1) next) (here : tr[n]? = some e) :
    ∃ s out, At step start tr n s ∧ step s e = some (next, out) := by
  obtain ⟨outs, ran⟩ := reached
  rw [List.take_add_one, here] at ran
  obtain ⟨s, head, tail, before, continued, _⟩ := run_append_inv ran
  obtain ⟨middle, out, _, stepped, ended, _⟩ := run_cons_inv continued
  cases ended
  exact ⟨s, out, ⟨head, before⟩, stepped⟩

/-- An invariant of the states of one run. -/
theorem At.invariant {Inv : S → Prop} (initial : Inv start)
    (preserved : ∀ n s e next out, tr[n]? = some e → At step start tr n s → Inv s → step s e = some (next, out) →
      Inv next) (reached : At step start tr n s) : Inv s := by
  induction n generalizing s with
  | zero =>
    have same : start = s := At.unique at_zero reached
    exact same ▸ initial
  | succ n ih =>
    cases here : tr[n]? with
    | none => exact ih (reached.last here)
    | some e =>
      obtain ⟨before, out, at_n, stepped⟩ := reached.inv here
      exact preserved n before e s out here at_n (ih at_n) stepped

/-- An invariant that allowed events keep, without failing, holds behind each event. -/
theorem exists_at (Inv : ℕ → S → Prop) (initial : Inv 0 start)
    (progress : ∀ n s e, tr[n]? = some e → Inv n s → cond s e →
      ∃ next out, step s e = some (next, out) ∧ Inv (n + 1) next)
    (along : Along step cond start tr) (bound : n ≤ tr.length) : ∃ s, At step start tr n s ∧ Inv n s := by
  induction n with
  | zero => exact ⟨start, at_zero, initial⟩
  | succ n ih =>
    obtain ⟨s, ⟨outs, ran⟩, inv⟩ := ih (Nat.le_of_succ_le bound)
    have here := List.getElem?_eq_getElem (Nat.lt_of_succ_le bound)
    obtain ⟨next, out, stepped, kept⟩ := progress n s _ here inv (along_at along ran here)
    exact ⟨next, At.succ ⟨outs, ran⟩ here stepped, kept⟩

/-- What every event preserves, from one position to a later one. -/
theorem advance_at {R : S → S → Prop} (refl : ∀ s, R s s) (trans : ∀ a b c, R a b → R b c → R a c)
    (exists_at : ∀ n ≤ tr.length, ∃ s, At step start tr n s)
    (advance : ∀ n e before after, tr[n]? = some e → At step start tr n before →
      At step start tr (n + 1) after → R before after)
    (later : n ≤ m) (before : At step start tr n s) (after : At step start tr m next) : R s next := by
  induction m, later using Nat.le_induction generalizing next with
  | base =>
    rw [before.unique after]
    exact refl _
  | succ m later ih =>
    cases here : tr[m]? with
    | none => exact ih (after.last here)
    | some e =>
      obtain ⟨bound, -⟩ := List.getElem?_eq_some_iff.mp here
      obtain ⟨middle, reached⟩ := exists_at m (Nat.le_of_lt bound)
      exact trans _ _ _ (ih reached) (advance m e middle next here reached after)

end At

section Reach
variable {initial : S → Prop} {allows : S → E → Prop} {step : S → E → Option S}

/-- States reached from an initial one by allowed steps that do not fail. -/
inductive Reach (initial : S → Prop) (allows : S → E → Prop) (step : S → E → Option S) : S → Prop
  | start {s} (fresh : initial s) : Reach initial allows step s
  | next {s s'} (e : E) (reached : Reach initial allows step s) (allowed : allows s e)
      (stepped : step s e = some s') : Reach initial allows step s'

theorem Reach.invariant (Inv : S → Prop) (fresh : ∀ s, initial s → Inv s)
    (preserved : ∀ s e s', Inv s → allows s e → step s e = some s' → Inv s') {s : S}
    (reached : Reach initial allows step s) : Inv s := by
  induction reached with
  | start start => exact fresh _ start
  | next e _ allowed stepped ih => exact preserved _ e _ ih allowed stepped

theorem Reach.mono {weaker : S → E → Prop} (implied : ∀ s e, allows s e → weaker s e) {s : S}
    (reached : Reach initial allows step s) : Reach initial weaker step s := by
  induction reached with
  | start start => exact .start start
  | next e _ allowed stepped ih => exact .next e ih (implied _ e allowed) stepped

/-- A schedule of allowed steps. -/
def follow (allows : S → E → Prop) [∀ s e, Decidable (allows s e)] (step : S → E → Option S) :
    S → List E → Option S
  | s, [] => some s
  | s, e :: rest => if allows s e then (step s e).bind (follow allows step · rest) else none

theorem Reach.follow [∀ s e, Decidable (allows s e)] {es : List E} {s last : S}
    (reached : Reach initial allows step s) (followed : follow allows step s es = some last) :
    Reach initial allows step last := by
  induction es generalizing s with
  | nil =>
    cases followed
    exact reached
  | cons e rest ih =>
    simp only [Runs.follow] at followed
    split at followed
    · next allowed =>
      obtain ⟨next, stepped, followed⟩ := Option.bind_eq_some_iff.mp followed
      exact ih (.next e reached allowed stepped) followed
    · exact nomatch followed

/-- A test at the end of a schedule holds in a reachable state. -/
theorem Reach.of_follow [∀ s e, Decidable (allows s e)] {s : S} (fresh : initial s) (es : List E)
    {test : S → Bool} (passed : (Runs.follow allows step s es).any test = true) :
    ∃ last, Reach initial allows step last ∧ test last = true := by
  obtain ⟨last, followed, passed⟩ := (Option.any_eq_true _ _).mp passed
  exact ⟨last, (Reach.start fresh).follow followed, passed⟩

end Reach
end Runs
