import Maple.Lib.Priority
import Maple.Lib.Runs
import Maple.Systematic.Program

/-! The fair control module of `systematic/fair.cc`. A thread's tables spring into
existence together, at its first yield; from then on the thread is in its own set of
scheduled threads whenever it yields, and so never gets an edge to itself. -/
namespace Maple.Systematic

abbrev ThreadSet := Std.ExtTreeSet Thread

structure FairControl where
  /-- `e_[t]`: continuously enabled since the last yield of `t`. -/
  e : OrdMap Thread ThreadSet := ∅
  /-- `d_[t]`: disabled by a transition of `t` since its last yield. -/
  d : OrdMap Thread ThreadSet := ∅
  /-- `s_[t]`: scheduled since the last yield of `t`. -/
  s : OrdMap Thread ThreadSet := ∅
  /-- `p_`: the first thread has lower priority than the second. -/
  p : List (Thread × Thread) := []

namespace FairControl

def enabled (c : FairControl) (curr : State) (next : Action) : Bool :=
  c.p.all fun pair => !(pair.1 = next.thd && curr.isEnabled pair.2)

/-- Lines 13 to 21: what is done whether or not the action yields. -/
def advance (c : FairControl) (prev curr : State) (t : Thread) : FairControl where
  p := c.p.filter fun pair => pair.2 ≠ t
  e := c.e.map fun _ eu => eu.filter curr.isEnabled
  d := c.d.map fun u du =>
    if u = t then du.insertMany ((prev.enabled.map (·.thd)).filter fun v => !curr.isEnabled v) else du
  s := c.s.map fun _ su => su.insert t

/-- Line 24: the threads that `t` has starved. -/
def starved (c : FairControl) (t : Thread) : List Thread :=
  ((c.e[t]?.getD ∅).toList ++ (c.d[t]?.getD ∅).toList).filter fun u => !(c.s[t]?.getD ∅).contains u

/-- `if (!exist) p_.push_back(...)` -/
def addPair (p : List (Thread × Thread)) (pair : Thread × Thread) : List (Thread × Thread) :=
  if pair ∈ p then p else p ++ [pair]

/-- Lines 24 to 28. -/
def yield (c : FairControl) (curr : State) (t : Thread) : FairControl where
  p := (c.starved t).foldl (fun p h => addPair p (t, h)) c.p
  e := c.e.insert t (.ofList (curr.enabled.map (·.thd)))
  d := c.d.insert t ∅
  s := c.s.insert t ∅

/-- `prev` is `curr_state->Prev()`; a previous state without a taken action fails
the assertion. -/
def update (c : FairControl) (prev : Option State) (curr : State) : Option FairControl :=
  match prev with
  | none => some c
  | some prev => do
    let action ← prev.taken
    let advanced := c.advance prev curr action.thd
    return if action.isYieldOp then advanced.yield curr action.thd else advanced

def Prior (c : FairControl) (t u : Thread) : Prop := (t, u) ∈ c.p

instance (c : FairControl) (t u : Thread) : Decidable (c.Prior t u) :=
  inferInstanceAs (Decidable (_ ∈ _))

variable {c next : FairControl} {prev curr : State} {t u v : Thread}

theorem enabled_iff {action : Action} : c.enabled curr action = true ↔
    ∀ v, c.Prior action.thd v → curr.isEnabled v = false := by
  simp only [enabled, List.all_eq_true, Prior, Bool.not_eq_true', Bool.and_eq_false_iff,
    decide_eq_false_iff_not, Prod.forall]
  constructor
  · exact fun all v pair => (all _ v pair).resolve_left (fun other => other rfl)
  · intro all w v pair
    by_cases same : w = action.thd
    · exact Or.inr (all v (same ▸ pair))
    · exact Or.inl same

theorem prior_advance : (c.advance prev curr t).Prior u v ↔ c.Prior u v ∧ v ≠ t := by
  simp [Prior, advance]

theorem mem_addPairs (pairs : List (Thread × Thread)) (hs : List Thread) (pair : Thread × Thread) :
    pair ∈ hs.foldl (fun p h => addPair p (t, h)) pairs ↔ pair ∈ pairs ∨ pair.1 = t ∧ pair.2 ∈ hs := by
  induction hs generalizing pairs with
  | nil => simp
  | cons h rest ih =>
    have added : pair ∈ addPair pairs (t, h) ↔ pair ∈ pairs ∨ pair = (t, h) := by
      unfold addPair
      split
      · next old => exact ⟨Or.inl, fun new => new.elim id (fun same => same ▸ old)⟩
      · simp
    rw [List.foldl_cons, ih, added, or_assoc, List.mem_cons, Prod.ext_iff]
    grind

theorem prior_yield : (c.yield curr t).Prior u v ↔ c.Prior u v ∨ u = t ∧ v ∈ c.starved t :=
  mem_addPairs c.p (c.starved t) (u, v)

/-- A thread has all three tables or none. -/
def Tabled (c : FairControl) : Prop := ∀ t : Thread, c.s[t]? = none → c.e[t]? = none ∧ c.d[t]? = none

theorem Tabled.advance (tabled : c.Tabled) : (c.advance prev curr t).Tabled := by
  intro u missing
  simp only [FairControl.advance, Std.ExtTreeMap.getElem?_map, Option.map_eq_none_iff] at missing ⊢
  exact tabled u missing

theorem Tabled.yield (tabled : c.Tabled) : (c.yield curr t).Tabled := by
  intro u missing
  simp only [FairControl.yield, getElem?_insert_thread] at missing ⊢
  split at missing
  · exact nomatch missing
  · next other =>
    rw [if_neg other, if_neg other]
    exact tabled u missing

/-- Whoever yields has been scheduled since its last yield. -/
theorem Tabled.not_mem_starved (tabled : c.Tabled) : t ∉ (c.advance prev curr t).starved t := by
  intro member
  obtain ⟨listed, unscheduled⟩ := List.mem_filter.mp member
  cases found : c.s[t]? with
  | none =>
    obtain ⟨noE, noD⟩ := tabled t found
    simp [FairControl.advance, Std.ExtTreeMap.getElem?_map, noE, noD] at listed
  | some su => simp [FairControl.advance, Std.ExtTreeMap.getElem?_map, found] at unscheduled

/-- What every call of `Update` keeps. -/
structure Ordered (c : FairControl) : Prop where
  tabled : c.Tabled
  acyclic : Priority.Acyclic c.Prior

theorem ordered_start : Ordered {} where
  tabled _ _ := by simp
  acyclic := Priority.acyclic_of_empty (by simp [Prior])

theorem Ordered.update (ordered : c.Ordered) {prev : Option State}
    (updated : c.update prev curr = some next) : next.Ordered := by
  cases prev with
  | none =>
    cases updated
    exact ordered
  | some prev =>
    obtain ⟨action, _, rest⟩ := Option.bind_eq_some_iff.mp updated
    cases rest
    have edges : ∀ u v, (c.advance prev curr action.thd).Prior u v → v ≠ action.thd ∧ c.Prior u v :=
      fun u v edge => (prior_advance.mp edge).symm
    split
    · refine ⟨ordered.tabled.advance.yield, ordered.acyclic.demote (t := action.thd) fun u v edge => ?_⟩
      rcases prior_yield.mp edge with old | ⟨source, hungry⟩
      · exact ⟨(edges u v old).1, Or.inl (edges u v old).2⟩
      · refine ⟨?_, Or.inr source⟩
        rintro rfl
        exact ordered.tabled.not_mem_starved hungry
    · exact ⟨ordered.tabled.advance, ordered.acyclic.demote fun u v edge =>
        ⟨(edges u v edge).1, Or.inl (edges u v edge).2⟩⟩

/-- An acyclic relation lets somebody run. -/
theorem Ordered.exists_enabled (ordered : c.Ordered) (inhabited : curr.enabled ≠ []) :
    ∃ a ∈ curr.enabled, c.enabled curr a = true := by
  have threads : curr.enabled.map (·.thd) ≠ [] := fun none => inhabited (List.map_eq_nil_iff.mp none)
  obtain ⟨t, member, free⟩ := ordered.acyclic.exists_free threads
  obtain ⟨a, listed, rfl⟩ := List.mem_map.mp member
  refine ⟨a, listed, enabled_iff.mpr fun v edge => ?_⟩
  rw [Bool.eq_false_iff, ne_eq, State.isEnabled_iff]
  rintro ⟨other, inside, rfl⟩
  exact free _ (List.mem_map_of_mem inside) edge

end FairControl

/-- The module and the state it was updated on last. -/
structure FairRun where
  control : FairControl := {}
  state : Option State := none

namespace FairRun

/-- An enabled action has been taken from the last state. -/
def Allows (r : FairRun) (_ : State) : Prop := ∀ s ∈ r.state, ∃ a ∈ s.enabled, s.taken = some a

instance (r : FairRun) (curr : State) : Decidable (r.Allows curr) :=
  decidable_of_iff (r.state.all fun s => s.enabled.any fun a => s.taken = some a)
    (by simp [Allows, Option.all_eq_true])

def step (r : FairRun) (curr : State) : Option FairRun :=
  (r.control.update r.state curr).map fun control => { control, state := some curr }

abbrev Reachable : FairRun → Prop := Runs.Reach (· = {}) Allows step

/-- No assertion fails along a run. -/
theorem step_total {r : FairRun} {curr : State} (allowed : r.Allows curr) :
    ∃ next, r.step curr = some next := by
  cases last : r.state with
  | none =>
    rw [step, last]
    exact ⟨_, rfl⟩
  | some prev =>
    obtain ⟨a, _, taken⟩ := allowed prev last
    rw [step, last, FairControl.update, taken]
    exact ⟨_, rfl⟩

end FairRun

/-- The priorities have no cycle in any run of the program, and so the fair control
module never holds back every enabled thread. -/
theorem fair_never_blocks {r : FairRun} (reached : r.Reachable) :
    Priority.Acyclic r.control.Prior ∧ (∀ t, ¬ r.control.Prior t t) ∧
      ∀ curr ∈ r.state, curr.enabled ≠ [] →
        ∃ a ∈ curr.enabled, r.control.enabled curr a = true := by
  have ordered : r.control.Ordered := by
    apply reached.invariant (fun r => r.control.Ordered)
    · rintro r rfl
      exact FairControl.ordered_start
    · intro r curr next ordered _ stepped
      obtain ⟨control, updated, rfl⟩ := Option.map_eq_some_iff.mp stepped
      exact ordered.update updated
  exact ⟨ordered.acyclic, ordered.acyclic.irrefl, fun curr _ => ordered.exists_enabled⟩

/-- Thread 1 yields twice while thread 2 waits, and then has lower priority. -/
theorem fair_never_blocks_yield : ∃ r : FairRun, r.Reachable ∧ r.control.Prior 1 2 ∧
    Priority.Acyclic r.control.Prior ∧ (∀ t, ¬ r.control.Prior t t) ∧
      ∀ curr ∈ r.state, curr.enabled ≠ [] →
        ∃ a ∈ curr.enabled, r.control.enabled curr a = true := by
  have ran : ∃ r : FairRun, r.Reachable ∧ decide (r.control.Prior 1 2) = true := by
    let yields : Action := { thd := 1, op := .schedYield, isYieldOp := true }
    let waits : Action := { thd := 2, op := .memRead }
    let both : State := { enabled := [yields, waits], taken := some yields }
    apply Runs.Reach.of_follow (E := State) (s := {}) ?_ [both, both, both]
    · decide +kernel
    · rfl
  obtain ⟨r, reached, prior⟩ := ran
  exact ⟨r, reached, of_decide_eq_true prior, fair_never_blocks reached⟩

end Maple.Systematic
