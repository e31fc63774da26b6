import Maple.Lib.Runs
import Maple.Pct.Scheduler

/-! While the calls keep to the protocol, every change point is consumed once and in order, and
the call that consumes it lowers its thread to the change priority of that index. -/
namespace Maple.Pct

/-- What `Randomize` leaves to the calls. -/
structure Config.Graded (c : Config) : Prop where
  points : ∀ n : ℕ, (n : ℤ) < c.depth - 1 ↔ n < c.changePoints.length
  priorities : c.changePriorities.length = c.changePoints.length
  sorted : c.changePoints.Pairwise (· ≤ ·)
  descending : c.changePriorities.Pairwise fun a b => c.Lower b a
  below : ∀ p ∈ c.changePriorities, ∀ q ∈ c.newThreadPriorities, c.Lower p q

section Randomize
variable {strict : Bool} {depth low high : ℤ} {shuffle : List ℤ → List ℤ} {draw : ℕ → ℕ}

theorem length_changePoints :
    (randomize strict depth low high shuffle draw).changePoints.length = (depth - 1).toNat := by
  simp only [randomize, List.length_insertionSort, List.length_map, List.length_range]

theorem length_changePriorities :
    (randomize strict depth low high shuffle draw).changePriorities.length = (depth - 1).toNat := by
  simp only [randomize, List.length_map, List.length_reverse, List.length_range]

theorem mem_changePriorities {p : ℤ}
    (member : p ∈ (randomize strict depth low high shuffle draw).changePriorities) :
    ∃ i : ℕ, (i : ℤ) < depth - 1 ∧ p = if strict then low + i else high - i := by
  simp only [randomize, List.mem_map, List.mem_reverse, List.mem_range] at member
  obtain ⟨i, inside, rfl⟩ := member
  exact ⟨i, by omega, rfl⟩

theorem mem_newThreadPriorities (shuffled : ∀ l, (shuffle l).Perm l) {q : ℤ}
    (member : q ∈ (randomize strict depth low high shuffle draw).newThreadPriorities) :
    ∃ i : ℕ, (i : ℤ) < high - low - depth + 2 ∧ q = if strict then low + depth - 1 + i else low + i := by
  simp only [randomize, (shuffled _).mem_iff, List.mem_map, List.mem_range] at member
  obtain ⟨i, inside, rfl⟩ := member
  exact ⟨i, by omega, rfl⟩

theorem randomize_graded (shuffled : ∀ l, (shuffle l).Perm l) :
    (randomize strict depth low high shuffle draw).Graded := by
  constructor
  case points =>
    intro n
    rw [length_changePoints]
    simp only [randomize]
    omega
  case priorities => rw [length_changePriorities, length_changePoints]
  case sorted => exact List.pairwise_insertionSort _ _
  case descending =>
    simp only [randomize, List.map_reverse, List.pairwise_reverse, List.pairwise_map]
    refine List.pairwise_lt_range.imp fun {i j} less => ?_
    cases strict <;> simp only [Config.Lower, if_true, Bool.false_eq_true, if_false] <;> omega
  case below =>
    intro p lower q upper
    obtain ⟨i, inside, rfl⟩ := mem_changePriorities lower
    obtain ⟨j, inside', rfl⟩ := mem_newThreadPriorities shuffled upper
    cases strict <;> simp only [Config.Lower, randomize, if_true, Bool.false_eq_true, if_false] <;> omega

/-- With at least `depth` levels there is a priority for a new thread. -/
theorem newThreadPriorities_ne_nil (shuffled : ∀ l, (shuffle l).Perm l) (range : depth ≤ high - low + 1) :
    0 < (randomize strict depth low high shuffle draw).newThreadPriorities.length := by
  simp only [randomize, (shuffled _).length_eq, List.length_map, List.length_range]
  omega

end Randomize

variable {c : Config} {s next : State} {t : ThreadId} {i k : ℕ} {priority : ℤ}

namespace Phase
variable {phase : Phase}

theorem advancing?_eq : phase.advancing? = some i ↔ phase = .advancing i := by
  cases phase <;> simp [advancing?]

theorem setting?_eq : phase.setting? = some (i, priority) ↔ phase = .setting i priority := by
  cases phase <;> simp [setting?]

theorem point?_of_waiting? (waiting : phase.waiting? = some i) : phase.point? = some i := by
  cases phase <;> simp_all [waiting?, point?]

end Phase

namespace State

theorem goto_self (s : State) (t : ThreadId) (phase : Phase) : (s.goto t phase).phase t = phase :=
  Function.update_self ..

theorem goto_other {u : ThreadId} (other : u ≠ t) (phase : Phase) : (s.goto t phase).phase u = s.phase u :=
  Function.update_of_ne other ..

/-- What a thread keeps in its own change of phase is kept by all. -/
theorem goto_keeps {β : Type} (view : Phase → β) {phase : Phase} (same : view phase = view (s.phase t))
    (u : ThreadId) : view ((s.goto t phase).phase u) = view (s.phase u) := by
  by_cases here : u = t
  · subst here
    rw [goto_self, same]
  · rw [goto_other here]

end State

/-- The tests and the cursor. -/
structure Points (c : Config) (s : State) : Prop where
  indexed : ∀ i (e : Consumption), s.consumed[i]? = some e → e.point = i
  reached : ∀ e ∈ s.consumed, e.count ∈ s.counts ∧
    ∃ point, c.changePoints[e.point]? = some point ∧ point ≤ e.count
  missed : ∀ k ∈ s.missed, ∀ i point, s.consumed.length ≤ i → c.changePoints[i]? = some point → k < point
  settled : (∀ t, (s.phase t).advancing? = none) → s.consumed.length = s.changePointsCursor
  advancing : ∀ t i, (s.phase t).advancing? = some i →
    s.consumed.length = s.changePointsCursor + 1 ∧ ∀ u, u ≠ t → (s.phase u).advancing? = none

/-- The calls that passed the test. -/
structure Calls (c : Config) (s : State) : Prop where
  owns : ∀ t i, (s.phase t).point? = some i → ∃ k, s.consumed[i]? = some ⟨t, k, i⟩
  pending : ∀ i e, s.consumed[i]? = some e →
    (∃ l ∈ s.lowered, l.point = i) ∨ (s.phase e.thread).point? = some i
  later : ∀ t i, (s.phase t).point? = some i → ∀ l ∈ s.lowered, l.thread = t → l.point < i
  lowered : ∀ l ∈ s.lowered, (∃ k, s.consumed[l.point]? = some ⟨l.thread, k, l.point⟩) ∧
    c.changePriorities[l.point]? = some l.priority ∧ ∀ old, l.before = some old → c.Lower l.priority old
  once : (s.lowered.map (·.point)).Nodup
  behind : s.changePrioritiesCursor ≤ s.consumed.length
  fetched : ∀ i e, s.consumed[i]? = some e →
    i < s.changePrioritiesCursor ∨ (s.phase e.thread).waiting? = some i
  waiting : ∀ t i, (s.phase t).waiting? = some i → s.changePrioritiesCursor ≤ i
  setting : ∀ t i priority, (s.phase t).setting? = some (i, priority) → c.changePriorities[i]? = some priority
  priority : ∀ t p, s.priority t = some p →
    p ∈ c.newThreadPriorities ∨ ∃ l ∈ s.lowered, l.thread = t ∧ l.priority = p

structure Inv (c : Config) (s : State) : Prop where
  points : Points c s
  calls : Calls c s
  counted : ∀ t k, s.phase t = .testing k → k ∈ s.counts

theorem Points.keep (points : Points c s) (advancing : ∀ u, (next.phase u).advancing? = (s.phase u).advancing?)
    (consumed : next.consumed = s.consumed) (cursor : next.changePointsCursor = s.changePointsCursor)
    (missed : next.missed = s.missed) (counts : s.counts ⊆ next.counts) : Points c next := by
  constructor
  case indexed => simpa only [consumed] using points.indexed
  case reached =>
    intro e member
    obtain ⟨reached, point⟩ := points.reached e (consumed ▸ member)
    exact ⟨counts reached, point⟩
  case missed => simpa only [consumed, missed] using points.missed
  case settled => simpa only [advancing, consumed, cursor] using points.settled
  case advancing => simpa only [advancing, consumed, cursor] using points.advancing

theorem Calls.keep (calls : Calls c s) (point : ∀ u, (next.phase u).point? = (s.phase u).point?)
    (waiting : ∀ u, (next.phase u).waiting? = (s.phase u).waiting?)
    (setting : ∀ u, (next.phase u).setting? = (s.phase u).setting?)
    (consumed : next.consumed = s.consumed) (lowered : next.lowered = s.lowered)
    (cursor : next.changePrioritiesCursor = s.changePrioritiesCursor)
    (priority : ∀ t p, next.priority t = some p → p ∈ c.newThreadPriorities ∨ s.priority t = some p) :
    Calls c next := by
  constructor
  case owns => simpa only [point, consumed] using calls.owns
  case pending => simpa only [point, consumed, lowered] using calls.pending
  case later => simpa only [point, lowered] using calls.later
  case lowered => simpa only [consumed, lowered] using calls.lowered
  case once => simpa only [lowered] using calls.once
  case behind => simpa only [consumed, cursor] using calls.behind
  case fetched => simpa only [consumed, cursor, waiting] using calls.fetched
  case waiting => simpa only [waiting, cursor] using calls.waiting
  case setting => simpa only [setting] using calls.setting
  case priority =>
    intro t p has
    rcases priority t p has with new | same
    · exact Or.inl new
    · rw [lowered]
      exact calls.priority t p same

theorem Points.cursor_le (points : Points c s) : s.changePointsCursor ≤ s.consumed.length := by
  by_cases idle : ∀ t, (s.phase t).advancing? = none
  · exact (points.settled idle).ge
  · push Not at idle
    obtain ⟨t, running⟩ := idle
    obtain ⟨i, running⟩ := Option.ne_none_iff_exists'.mp running
    have := (points.advancing t i running).1
    omega

theorem getElem?_push {α : Type} {l : List α} {x y : α} (found : (l ++ [x])[i]? = some y) :
    l[i]? = some y ∨ i = l.length ∧ y = x := by
  rw [List.getElem?_append] at found
  split at found
  · exact Or.inl found
  · obtain ⟨inside, rfl⟩ := List.getElem?_eq_some_iff.mp found
    simp only [List.length_singleton] at inside
    exact Or.inr ⟨by omega, by simp⟩

theorem getElem?_push_old {α : Type} {l : List α} {x y : α} (found : l[i]? = some y) : (l ++ [x])[i]? = some y := by
  rw [List.getElem?_append_left (List.getElem?_eq_some_iff.mp found).1, found]

/-- A test that passes with nobody before the addition. -/
theorem Points.pass (points : Points c s) (alone : ∀ u, (s.phase u).advancing? = none) (counted : k ∈ s.counts)
    {point : ℕ} (here : c.changePoints[s.changePointsCursor]? = some point) (passed : point ≤ k) :
    Points c (s.pass t k s.changePointsCursor) := by
  have length := points.settled alone
  constructor
  case indexed =>
    intro i e found
    rcases getElem?_push found with found | ⟨rfl, rfl⟩
    · exact points.indexed i e found
    · exact length.symm
  case reached =>
    intro e member
    rcases List.mem_append.mp member with member | member
    · exact points.reached e member
    · cases List.mem_singleton.mp member
      exact ⟨counted, point, here, passed⟩
  case missed =>
    intro k' missed i point' beyond
    rw [State.pass, List.length_append] at beyond
    exact points.missed k' missed i point' (by omega)
  case settled =>
    intro idle
    have := idle t
    simp only [State.pass, State.goto_self, Phase.advancing?] at this
    exact nomatch this
  case advancing =>
    intro u i running
    have here : u = t := by
      by_contra other
      simp only [State.pass, State.goto_other other, alone] at running
      exact nomatch running
    subst here
    refine ⟨?_, fun v other => ?_⟩
    · simp only [State.pass, List.length_append, List.length_singleton, length]
      rfl
    · simp only [State.pass, State.goto_other other, alone]

theorem Points.miss (points : Points c s) (graded : c.Graded) (testing : s.phase t = .testing k)
    (failed : ∀ point, c.changePoints[s.changePointsCursor]? = some point → k < point) :
    Points c (s.miss t k) := by
  have advancing (u) : ((s.miss t k).phase u).advancing? = (s.phase u).advancing? :=
    s.goto_keeps Phase.advancing? (by rw [testing]; rfl) u
  constructor
  case indexed => exact points.indexed
  case reached => exact points.reached
  case missed =>
    intro k' missed i point beyond found
    rcases List.mem_append.mp missed with missed | missed
    · exact points.missed k' missed i point beyond found
    · cases List.mem_singleton.mp missed
      have further : s.changePointsCursor ≤ i := points.cursor_le.trans beyond
      obtain ⟨inside, rfl⟩ := List.getElem?_eq_some_iff.mp found
      have failed := failed _ (List.getElem?_eq_getElem (Nat.lt_of_le_of_lt further inside))
      rcases Nat.eq_or_lt_of_le further with rfl | further
      · exact failed
      · exact Nat.lt_of_lt_of_le failed (List.pairwise_iff_getElem.mp graded.sorted _ _ _ inside further)
  case settled =>
    simp only [advancing]
    exact points.settled
  case advancing =>
    simp only [advancing]
    exact points.advancing

theorem Points.advance (points : Points c s) (advancing : s.phase t = .advancing i) :
    Points c { s.goto t (.fetching i) with changePointsCursor := s.changePointsCursor + 1 } := by
  obtain ⟨length, alone⟩ := points.advancing t i (Phase.advancing?_eq.mpr advancing)
  have idle (u) : ((s.goto t (.fetching i)).phase u).advancing? = none := by
    by_cases here : u = t
    · subst here
      rw [State.goto_self, Phase.advancing?]
      exact nofun
    · rw [State.goto_other here]
      exact alone u here
  constructor
  case indexed => exact points.indexed
  case reached => exact points.reached
  case missed => exact points.missed
  case settled => exact fun _ => length
  case advancing =>
    intro u j running
    rw [idle u] at running
    exact nomatch running

/-- The thread of a call that passes the test was in no other call. -/
theorem Calls.pass (calls : Calls c s) (testing : s.phase t = .testing k) :
    Calls c (s.pass t k s.consumed.length) := by
  have self : (s.pass t k s.consumed.length).phase t = .advancing s.consumed.length := s.goto_self t _
  have others {u} (other : u ≠ t) : (s.pass t k s.consumed.length).phase u = s.phase u := s.goto_other other _
  have busy {u} {i : ℕ} (running : (s.phase u).point? = some i) : u ≠ t := by
    rintro rfl
    rw [testing] at running
    exact nomatch running
  have last : (s.pass t k s.consumed.length).consumed[s.consumed.length]? = some ⟨t, k, s.consumed.length⟩ := by
    simp only [State.pass, List.getElem?_concat_length]
  constructor
  case owns =>
    intro u i running
    by_cases here : u = t
    · subst here
      rw [self] at running
      cases running
      exact ⟨k, last⟩
    · rw [others here] at running
      obtain ⟨k', found⟩ := calls.owns u i running
      exact ⟨k', getElem?_push_old found⟩
  case pending =>
    intro i e found
    rcases getElem?_push found with found | ⟨rfl, rfl⟩
    · rcases calls.pending i e found with done | running
      · exact Or.inl done
      · rw [others (busy running)]
        exact Or.inr running
    · rw [self]
      exact Or.inr rfl
  case later =>
    intro u i running l member mine
    by_cases here : u = t
    · subst here
      rw [self] at running
      cases running
      obtain ⟨⟨k', found⟩, -⟩ := calls.lowered l member
      exact (List.getElem?_eq_some_iff.mp found).1
    · rw [others here] at running
      exact calls.later u i running l member mine
  case lowered =>
    intro l member
    obtain ⟨⟨k', found⟩, priority⟩ := calls.lowered l member
    exact ⟨⟨k', getElem?_push_old found⟩, priority⟩
  case once => exact calls.once
  case behind =>
    rw [State.pass, List.length_append]
    exact Nat.le_add_right_of_le calls.behind
  case fetched =>
    intro i e found
    rcases getElem?_push found with found | ⟨rfl, rfl⟩
    · rcases calls.fetched i e found with done | waiting
      · exact Or.inl done
      · rw [others (busy (Phase.point?_of_waiting? waiting))]
        exact Or.inr waiting
    · rw [self]
      exact Or.inr rfl
  case waiting =>
    intro u i waiting
    by_cases here : u = t
    · subst here
      rw [self] at waiting
      cases waiting
      exact calls.behind
    · rw [others here] at waiting
      exact calls.waiting u i waiting
  case setting =>
    intro u i priority setting
    by_cases here : u = t
    · subst here
      rw [self] at setting
      exact nomatch setting
    · rw [others here] at setting
      exact calls.setting u i priority setting
  case priority => exact calls.priority

/-- With nobody before it, the call gets the change priority of its change point. -/
theorem Calls.due (calls : Calls c s) (fetching : s.phase t = .fetching i)
    (first : ∀ u j, (s.phase u).waiting? = some j → i ≤ j) :
    i = s.changePrioritiesCursor ∧ i < s.consumed.length := by
  obtain ⟨k, mine⟩ := calls.owns t i (by rw [fetching]; rfl)
  have reached := calls.waiting t i (by rw [fetching]; rfl)
  have inside := (List.getElem?_eq_some_iff.mp mine).1
  have next := List.getElem?_eq_getElem (Nat.lt_of_le_of_lt reached inside)
  rcases calls.fetched _ _ next with done | waiting
  · exact absurd done (Nat.lt_irrefl _)
  · exact ⟨Nat.le_antisymm (first _ _ waiting) reached, inside⟩

theorem Calls.fetch (calls : Calls c s) (fetching : s.phase t = .fetching i)
    (first : ∀ u j, (s.phase u).waiting? = some j → i ≤ j) (priority : ℤ)
    (here : c.changePriorities[i]? = some priority) :
    Calls c (State.goto { s with changePrioritiesCursor := s.changePrioritiesCursor + 1 } t (.setting i priority)) := by
  obtain ⟨due, inside⟩ := calls.due fetching first
  obtain ⟨k, mine⟩ := calls.owns t i (by rw [fetching]; rfl)
  have point (u) : ((s.goto t (.setting i priority)).phase u).point? = (s.phase u).point? :=
    s.goto_keeps Phase.point? (by rw [fetching]; rfl) u
  constructor
  case owns => exact fun u j running => calls.owns u j ((point u).symm.trans running)
  case pending => exact fun j e found => (calls.pending j e found).imp_right (point e.thread).trans
  case later => exact fun u j running => calls.later u j ((point u).symm.trans running)
  case lowered => exact calls.lowered
  case once => exact calls.once
  case behind => exact due ▸ inside
  case fetched =>
    intro j e found
    rcases calls.fetched j e found with done | waiting
    · exact Or.inl (Nat.lt_succ_of_lt done)
    · by_cases here : e.thread = t
      · rw [here, fetching] at waiting
        cases waiting
        exact Or.inl (due ▸ Nat.lt_succ_self i)
      · rw [State.goto_other here]
        exact Or.inr waiting
  case waiting =>
    intro u j waiting
    have other : u ≠ t := by
      rintro rfl
      rw [State.goto_self] at waiting
      exact nomatch waiting
    rw [State.goto_other other] at waiting
    -- the change point of this call is its own
    have apart : s.changePrioritiesCursor ≠ j := by
      rintro rfl
      obtain ⟨k', theirs⟩ := calls.owns u _ (Phase.point?_of_waiting? waiting)
      rw [← due, mine] at theirs
      cases theirs
      exact other rfl
    exact Nat.lt_of_le_of_ne (calls.waiting u j waiting) apart
  case setting =>
    intro u j priority' setting
    by_cases self : u = t
    · subst self
      rw [State.goto_self] at setting
      cases setting
      exact here
    · rw [State.goto_other self] at setting
      exact calls.setting u j priority' setting
  case priority => exact calls.priority

/-- The priority that a thread gets is below the one it has. -/
theorem Calls.lowers (calls : Calls c s) (graded : c.Graded) (setting : s.phase t = .setting i priority) {old : ℤ}
    (before : s.priority t = some old) : c.Lower priority old := by
  have fetched := calls.setting t i priority (by rw [setting]; rfl)
  rcases calls.priority t old before with new | ⟨l, member, mine, rfl⟩
  · exact graded.below priority (List.mem_of_getElem? fetched) old new
  · have less := calls.later t i (by rw [setting]; rfl) l member mine
    obtain ⟨-, earlier, -⟩ := calls.lowered l member
    obtain ⟨inside, rfl⟩ := List.getElem?_eq_some_iff.mp fetched
    obtain ⟨inside', earlier⟩ := List.getElem?_eq_some_iff.mp earlier
    rw [← earlier]
    exact List.pairwise_iff_getElem.mp graded.descending _ _ inside' inside less

theorem Calls.set (calls : Calls c s) (graded : c.Graded) (setting : s.phase t = .setting i priority) :
    Calls c { (s.setPriority t priority).goto t .idle with
      lowered := s.lowered ++ [⟨t, i, s.priority t, priority⟩] } := by
  have running : (s.phase t).point? = some i := by rw [setting]; rfl
  have other {u j} (busy : (((s.setPriority t priority).goto t .idle).phase u).point? = some j) :
      u ≠ t ∧ (s.phase u).point? = some j := by
    have apart : u ≠ t := by
      rintro rfl
      rw [State.goto_self] at busy
      exact nomatch busy
    rw [State.goto_other apart] at busy
    exact ⟨apart, busy⟩
  have waiting (u) : (((s.setPriority t priority).goto t .idle).phase u).waiting? = (s.phase u).waiting? :=
    (s.setPriority t priority).goto_keeps Phase.waiting? (by rw [State.setPriority, setting]; rfl) u
  constructor
  case owns => exact fun u j busy => calls.owns u j (other busy).2
  case pending =>
    intro j e found
    rcases calls.pending j e found with ⟨l, member, point⟩ | busy
    · exact Or.inl ⟨l, List.mem_append_left _ member, point⟩
    · by_cases here : e.thread = t
      · rw [here, running] at busy
        cases busy
        exact Or.inl ⟨_, List.mem_append_right _ List.mem_cons_self, rfl⟩
      · rw [State.goto_other here]
        exact Or.inr busy
  case later =>
    intro u j busy l member mine
    obtain ⟨apart, busy⟩ := other busy
    rcases List.mem_append.mp member with member | member
    · exact calls.later u j busy l member mine
    · cases List.mem_singleton.mp member
      exact absurd mine.symm apart
  case lowered =>
    intro l member
    rcases List.mem_append.mp member with member | member
    · exact calls.lowered l member
    · cases List.mem_singleton.mp member
      exact ⟨calls.owns t i running, calls.setting t i priority (by rw [setting]; rfl),
        fun old before => calls.lowers graded setting before⟩
  case once =>
    rw [List.map_append, List.nodup_append]
    refine ⟨calls.once, List.nodup_singleton _, ?_⟩
    rintro j earlier j' now rfl
    obtain ⟨l, member, rfl⟩ := List.mem_map.mp earlier
    -- the change point is owned by this call alone
    cases List.mem_singleton.mp now
    obtain ⟨⟨k, theirs⟩, -⟩ := calls.lowered l member
    obtain ⟨k', mine⟩ := calls.owns t _ running
    have same : l.thread = t := congrArg Consumption.thread (Option.some.inj (theirs.symm.trans mine))
    exact absurd (calls.later t _ running l member same) (Nat.lt_irrefl _)
  case behind => exact calls.behind
  case fetched => exact fun j e found => (calls.fetched j e found).imp_right (waiting e.thread).trans
  case waiting => exact fun u j busy => calls.waiting u j ((waiting u).symm.trans busy)
  case setting =>
    intro u j priority' busy
    have point : (((s.setPriority t priority).goto t .idle).phase u).point? = some j := by
      rw [Phase.setting?_eq.mp busy]
      rfl
    rw [State.goto_other (other point).1] at busy
    exact calls.setting u j priority' busy
  case priority =>
    intro u p has
    by_cases here : u = t
    · subst here
      have same : p = priority := by
        simpa [State.setPriority, State.goto, eq_comm] using has
      exact Or.inr ⟨_, List.mem_append_right _ List.mem_cons_self, rfl, same.symm⟩
    · have old : s.priority u = some p := by
        simpa [State.setPriority, State.goto, Function.update_of_ne here] using has
      rcases calls.priority u p old with new | ⟨l, member, mine, same⟩
      · exact Or.inl new
      · exact Or.inr ⟨l, List.mem_append_left _ member, mine, same⟩

/-- Both branches of `NeedPriorityChange`. -/
theorem needPriorityChange_spec (graded : c.Graded) (s : State) (t : ThreadId) (k : ℕ) :
    (∃ point, c.changePoints[s.changePointsCursor]? = some point ∧ point ≤ k ∧
      s.needPriorityChange c t k = some (s.pass t k s.changePointsCursor)) ∨
    (∀ point, c.changePoints[s.changePointsCursor]? = some point → k < point) ∧
      s.needPriorityChange c t k = some (s.miss t k) := by
  by_cases inside : s.changePointsCursor < c.changePoints.length
  · have here := List.getElem?_eq_getElem inside
    simp only [State.needPriorityChange, (graded.points _).mpr inside, here, if_true, Option.bind_eq_bind,
      Option.bind_some]
    by_cases passed : c.changePoints[s.changePointsCursor] ≤ k
    · exact Or.inl ⟨_, rfl, passed, by rw [if_pos passed]; rfl⟩
    · refine Or.inr ⟨fun point found => ?_, by rw [if_neg passed]; rfl⟩
      cases found
      exact Nat.lt_of_not_le passed
  · have beyond := List.getElem?_eq_none (Nat.le_of_not_lt inside)
    refine Or.inr ⟨fun point found => ?_, ?_⟩
    · rw [beyond] at found
      exact nomatch found
    · rw [State.needPriorityChange, if_neg (mt (graded.points _).mp inside)]
      rfl

theorem counted_goto (counted : ∀ u k, s.phase u = .testing k → k ∈ s.counts) {phase : Phase}
    (fresh : ∀ k, phase = .testing k → k ∈ s.counts) (u : ThreadId) (k : ℕ)
    (testing : (s.goto t phase).phase u = .testing k) : k ∈ s.counts := by
  by_cases here : u = t
  · subst here
    rw [State.goto_self] at testing
    exact fresh k testing
  · rw [State.goto_other here] at testing
    exact counted u k testing

theorem Inv.goto (inv : Inv c s) {phase : Phase} (idle : (s.phase t).point? = none) (quiet : phase.point? = none)
    (fresh : ∀ k, phase = .testing k → k ∈ s.counts) : Inv c (s.goto t phase) := by
  have advancing : phase.advancing? = (s.phase t).advancing? := by
    generalize s.phase t = old at idle
    cases old <;> cases phase <;> simp_all [Phase.point?, Phase.advancing?]
  have waiting : phase.waiting? = (s.phase t).waiting? := by
    generalize s.phase t = old at idle
    cases old <;> cases phase <;> simp_all [Phase.point?, Phase.waiting?]
  have setting : phase.setting? = (s.phase t).setting? := by
    generalize s.phase t = old at idle
    cases old <;> cases phase <;> simp_all [Phase.point?, Phase.setting?]
  constructor
  case points =>
    exact inv.points.keep (s.goto_keeps Phase.advancing? advancing) rfl rfl rfl (List.Subset.refl _)
  case calls =>
    exact inv.calls.keep (s.goto_keeps Phase.point? (quiet.trans idle.symm)) (s.goto_keeps Phase.waiting? waiting)
      (s.goto_keeps Phase.setting? setting) rfl rfl rfl fun _ _ has => Or.inr has
  case counted => exact counted_goto inv.counted fresh

theorem Inv.addAndFetch (inv : Inv c s) {n : ℕ} (counting : s.phase t = .counting n) : Inv c (s.addAndFetch t n) := by
  have counts : s.counts ⊆ (s.addAndFetch t n).counts := List.subset_append_left _ _
  -- the count is there before the call goes on
  have inv : Inv c { s with
      totalInstCount := (s.addAndFetch t n).totalInstCount, counts := (s.addAndFetch t n).counts } :=
    ⟨inv.points.keep (fun _ => rfl) rfl rfl rfl counts,
      inv.calls.keep (fun _ => rfl) (fun _ => rfl) (fun _ => rfl) rfl rfl rfl fun _ _ has => Or.inr has,
      fun u k testing => counts (inv.counted u k testing)⟩
  apply inv.goto
  · rw [counting]
    rfl
  · rfl
  · rintro k ⟨⟩
    exact List.mem_append_right _ List.mem_cons_self

theorem Inv.newThread (inv : Inv c s) (stepped : s.step c (.newThread t) = some next) : Inv c next := by
  simp only [State.step] at stepped
  split at stepped
  · obtain ⟨⟨priority, after⟩, taken, done⟩ := Option.bind_eq_some_iff.mp stepped
    obtain ⟨_, found, taken⟩ := Option.bind_eq_some_iff.mp taken
    cases taken
    cases done
    refine ⟨inv.points.keep (fun _ => rfl) rfl rfl rfl (List.Subset.refl _),
      inv.calls.keep (fun _ => rfl) (fun _ => rfl) (fun _ => rfl) rfl rfl rfl fun u p has => ?_, inv.counted⟩
    by_cases here : u = t
    · subst here
      have same : p = priority := by simpa [State.setPriority, eq_comm] using has
      exact Or.inl (same ▸ List.mem_of_getElem? found)
    · exact Or.inr (by simpa [State.setPriority, Function.update_of_ne here] using has)
  · exact nomatch stepped

theorem Inv.test (graded : c.Graded) (inv : Inv c s) (testing : s.phase t = .testing k)
    (allowed : Allows c s (.test t)) (stepped : s.needPriorityChange c t k = some next) : Inv c next := by
  rcases needPriorityChange_spec graded s t k with ⟨point, here, passed, result⟩ | ⟨failed, result⟩
  · cases stepped.symm.trans result
    have alone := allowed k point testing here passed
    constructor
    case points => exact inv.points.pass alone (inv.counted t k testing) here passed
    case calls =>
      rw [← inv.points.settled alone]
      exact inv.calls.pass testing
    case counted => exact counted_goto inv.counted nofun
  · cases stepped.symm.trans result
    have quiet : Inv c (s.goto t .idle) := inv.goto (by rw [testing]; rfl) rfl nofun
    exact ⟨inv.points.miss graded testing failed,
      quiet.calls.keep (fun _ => rfl) (fun _ => rfl) (fun _ => rfl) rfl rfl rfl fun _ _ has => Or.inr has,
      quiet.counted⟩

theorem Inv.fetch (graded : c.Graded) (inv : Inv c s) (fetching : s.phase t = .fetching i)
    (allowed : Allows c s (.fetch t)) : ∃ priority, s.nextChangePriority c =
      some (priority, { s with changePrioritiesCursor := s.changePrioritiesCursor + 1 }) ∧
    Inv c (State.goto { s with changePrioritiesCursor := s.changePrioritiesCursor + 1 } t (.setting i priority)) := by
  have first := fun u j => allowed i u j fetching
  obtain ⟨due, inside⟩ := inv.calls.due fetching first
  have bound : i < c.changePriorities.length := by
    obtain ⟨-, point, found, -⟩ := inv.points.reached _ (List.getElem_mem inside)
    rw [inv.points.indexed i _ (List.getElem?_eq_getElem inside)] at found
    rw [graded.priorities]
    exact (List.getElem?_eq_some_iff.mp found).1
  have here := List.getElem?_eq_getElem bound
  refine ⟨_, ?_, ?_, inv.calls.fetch fetching first _ here, counted_goto inv.counted nofun⟩
  · rw [State.nextChangePriority, ← due, Nat.mod_eq_of_lt bound, here]
    rfl
  · refine inv.points.keep (fun u => ?_) rfl rfl rfl (List.Subset.refl _)
    exact s.goto_keeps Phase.advancing? (by rw [fetching]; rfl) u

theorem Inv.step (graded : c.Graded) {e : Event} (inv : Inv c s) (allowed : Allows c s e)
    (stepped : s.step c e = some next) : Inv c next := by
  cases e with
  | newThread t => exact inv.newThread stepped
  | setStartInstCount start =>
    cases stepped
    exact ⟨inv.points.keep (fun _ => rfl) rfl rfl rfl (List.Subset.refl _),
      inv.calls.keep (fun _ => rfl) (fun _ => rfl) (fun _ => rfl) rfl rfl rfl fun _ _ has => Or.inr has, inv.counted⟩
  | enter t n =>
    simp only [State.step] at stepped
    split at stepped
    · next idle =>
      cases stepped
      split
      · exact inv.goto (by rw [idle]; rfl) rfl nofun
      · exact inv
    · exact nomatch stepped
  | count t =>
    simp only [State.step] at stepped
    split at stepped
    · next counting =>
      cases stepped
      exact inv.addAndFetch counting
    · exact nomatch stepped
  | test t =>
    simp only [State.step] at stepped
    split at stepped
    · next testing => exact inv.test graded testing allowed stepped
    · exact nomatch stepped
  | advance t =>
    simp only [State.step] at stepped
    split at stepped
    · next cursor advancing =>
      cases stepped
      constructor
      case points => exact inv.points.advance advancing
      case calls =>
        exact inv.calls.keep (s.goto_keeps Phase.point? (by rw [advancing]; rfl))
          (s.goto_keeps Phase.waiting? (by rw [advancing]; rfl)) (s.goto_keeps Phase.setting? (by rw [advancing]; rfl))
          rfl rfl rfl fun _ _ has => Or.inr has
      case counted => exact counted_goto inv.counted nofun
    · exact nomatch stepped
  | fetch t =>
    simp only [State.step] at stepped
    split at stepped
    · next cursor fetching =>
      obtain ⟨priority, taken, after⟩ := inv.fetch graded fetching allowed
      rw [taken] at stepped
      cases stepped
      exact after
    · exact nomatch stepped
  | set t =>
    simp only [State.step] at stepped
    split at stepped
    · next cursor priority setting =>
      cases stepped
      constructor
      case points =>
        exact inv.points.keep (s.goto_keeps Phase.advancing? (by rw [setting]; rfl)) rfl rfl rfl (List.Subset.refl _)
      case calls => exact inv.calls.set graded setting
      case counted => exact counted_goto inv.counted nofun
    · exact nomatch stepped

/-- No index is out of bounds, and no division is by zero. -/
theorem Inv.serves (graded : c.Graded) (levels : 0 < c.newThreadPriorities.length) {e : Event} (inv : Inv c s)
    (due : Due s e) (allowed : Allows c s e) : ∃ next, s.step c e = some next := by
  cases e with
  | setStartInstCount start => exact ⟨_, rfl⟩
  | newThread t =>
    have idle : s.phase t = .idle := due
    have here := List.getElem?_eq_getElem (Nat.mod_lt s.newThreadPrioritiesCursor levels)
    simp only [State.step, idle, State.nextNewThreadPriority, here]
    exact ⟨_, rfl⟩
  | enter t n =>
    have idle : s.phase t = .idle := due
    exact ⟨_, by simp only [State.step, idle]; rfl⟩
  | count t =>
    obtain ⟨n, counting⟩ := due
    exact ⟨_, by simp only [State.step, counting]; rfl⟩
  | test t =>
    obtain ⟨k, testing⟩ := due
    simp only [State.step, testing]
    rcases needPriorityChange_spec graded s t k with ⟨_, _, _, result⟩ | ⟨_, result⟩
    · exact ⟨_, result⟩
    · exact ⟨_, result⟩
  | advance t =>
    obtain ⟨cursor, advancing⟩ := due
    exact ⟨_, by simp only [State.step, advancing]; rfl⟩
  | fetch t =>
    obtain ⟨cursor, fetching⟩ := due
    obtain ⟨priority, taken, -⟩ := inv.fetch graded fetching allowed
    exact ⟨_, by simp only [State.step, fetching, taken]; rfl⟩
  | set t =>
    obtain ⟨cursor, priority, setting⟩ := due
    exact ⟨_, by simp only [State.step, setting]; rfl⟩

/-- Every change point is consumed by one call, in order, and that call lowers its thread to the
change priority of the same index. -/
structure OnceInOrder (c : Config) (s : State) : Prop where
  inOrder : s.consumed.map (·.point) = List.range s.consumed.length
  reached : ∀ e ∈ s.consumed, e.count ∈ s.counts ∧
    ∃ point, c.changePoints[e.point]? = some point ∧ point ≤ e.count
  -- a call that lowers nothing has not reached a change point that is left
  missed : ∀ k ∈ s.missed, ∀ i point, s.consumed.length ≤ i → c.changePoints[i]? = some point → k < point
  lowers : ∀ l ∈ s.lowered, (∃ e ∈ s.consumed, e.point = l.point ∧ e.thread = l.thread) ∧
    c.changePriorities[l.point]? = some l.priority ∧ ∀ old, l.before = some old → c.Lower l.priority old
  once : (s.lowered.map (·.point)).Nodup
  -- the call that consumed it has lowered its thread or still runs
  pending : ∀ e ∈ s.consumed, (∃ l ∈ s.lowered, l.point = e.point) ∨ (s.phase e.thread).point? = some e.point

theorem Inv.onceInOrder (inv : Inv c s) : OnceInOrder c s := by
  constructor
  case inOrder =>
    apply List.ext_getElem?
    intro i
    rw [List.getElem?_map]
    rcases Nat.lt_or_ge i s.consumed.length with inside | beyond
    · have here := List.getElem?_eq_getElem inside
      rw [List.getElem?_range inside, here, Option.map_some, inv.points.indexed i _ here]
    · rw [List.getElem?_eq_none beyond, List.getElem?_eq_none (by rwa [List.length_range])]
      rfl
  case reached => exact inv.points.reached
  case missed => exact inv.points.missed
  case lowers =>
    intro l member
    obtain ⟨⟨k, found⟩, priority⟩ := inv.calls.lowered l member
    exact ⟨⟨_, List.mem_of_getElem? found, rfl, rfl⟩, priority⟩
  case once => exact inv.calls.once
  case pending =>
    intro e member
    obtain ⟨i, found⟩ := List.getElem?_of_mem member
    cases inv.points.indexed i e found
    exact inv.calls.pending _ e found

theorem inv_of_reach (graded : c.Graded) (reached : Runs.Reach (· = {}) (Allows c) (State.step c) s) : Inv c s := by
  apply reached.invariant (Inv c)
  · rintro _ rfl
    constructor
    case points => constructor <;> simp [Phase.advancing?]
    case calls => constructor <;> simp [Phase.point?, Phase.waiting?, Phase.setting?]
    case counted => simp
  · exact fun s e next inv allowed stepped => inv.step graded allowed stepped

theorem Config.Graded.nodup (graded : c.Graded) : c.changePriorities.Nodup := by
  refine graded.descending.imp fun {a b} lower same => ?_
  subst same
  simp [Config.Lower] at lower

/-- While the calls keep to the protocol. -/
theorem changePoints_once {strict : Bool} {depth low high : ℤ} {shuffle : List ℤ → List ℤ} {draw : ℕ → ℕ}
    (shuffled : ∀ l, (shuffle l).Perm l) (levels : depth ≤ high - low + 1)
    (reached : Runs.Reach (· = {}) (Allows (randomize strict depth low high shuffle draw))
      (State.step (randomize strict depth low high shuffle draw)) s) :
    let c := randomize strict depth low high shuffle draw
    OnceInOrder c s ∧ (∀ e, Due s e → Allows c s e → ∃ next, s.step c e = some next) ∧
      c.changePriorities.length = (depth - 1).toNat ∧ c.changePriorities.Nodup ∧
      ∀ p ∈ c.changePriorities, ∀ q ∈ c.newThreadPriorities, c.Lower p q := by
  have graded : (randomize strict depth low high shuffle draw).Graded := randomize_graded shuffled
  have inv := inv_of_reach graded reached
  have levels : 0 < (randomize strict depth low high shuffle draw).newThreadPriorities.length :=
    newThreadPriorities_ne_nil shuffled levels
  exact ⟨inv.onceInOrder, fun e due allowed => inv.serves graded levels due allowed,
    length_changePriorities, graded.nodup, graded.below⟩

section Among
variable {ts : List ThreadId} {e : Event} {u : ThreadId}

/-- A protocol for the threads of a list, which can be checked. -/
def AllowsAmong (ts : List ThreadId) (s : State) : Event → Prop
  | .setStartInstCount _ => True
  | .newThread t | .enter t _ | .count t | .advance t | .set t => t ∈ ts
  | .test t => t ∈ ts ∧ ∀ u ∈ ts, (s.phase u).advancing? = none
  | .fetch t => t ∈ ts ∧ ∀ u ∈ ts, ∀ j ∈ (s.phase u).waiting?, ∀ i ∈ (s.phase t).waiting?, i ≤ j

instance (ts : List ThreadId) (s : State) (e : Event) : Decidable (AllowsAmong ts s e) := by
  cases e <;> simp only [AllowsAmong] <;> infer_instance

theorem step_outside (outside : u ∉ ts) (among : AllowsAmong ts s e) (stepped : s.step c e = some next) :
    next.phase u = s.phase u := by
  have other : ∀ t ∈ ts, u ≠ t := fun t member same => outside (same ▸ member)
  cases e with
  | setStartInstCount start =>
    cases stepped
    rfl
  | newThread t =>
    simp only [State.step] at stepped
    split at stepped
    · simp only [State.nextNewThreadPriority, Option.bind_eq_bind, Option.bind_eq_some_iff] at stepped
      obtain ⟨_, ⟨_, _, same⟩, result⟩ := stepped
      cases same
      cases result
      rfl
    · cases stepped
  | enter t n =>
    simp only [State.step] at stepped
    split at stepped
    · cases stepped
      split
      · exact State.goto_other (other t among) _
      · rfl
    · cases stepped
  | count t | advance t | set t =>
    simp only [State.step] at stepped
    split at stepped
    · cases stepped
      exact State.goto_other (other t among) _
    · cases stepped
  | test t =>
    simp only [State.step] at stepped
    split at stepped
    · simp only [State.needPriorityChange] at stepped
      split at stepped
      · obtain ⟨point, _, result⟩ := Option.bind_eq_some_iff.mp stepped
        split at result <;> cases result <;> exact State.goto_other (other t among.1) _
      · cases stepped
        exact State.goto_other (other t among.1) _
    · cases stepped
  | fetch t =>
    simp only [State.step] at stepped
    split at stepped
    · simp only [State.nextChangePriority, Option.bind_eq_bind, Option.bind_eq_some_iff] at stepped
      obtain ⟨_, ⟨_, _, same⟩, result⟩ := stepped
      cases same
      cases result
      exact State.goto_other (other t among.1) _
    · cases stepped

theorem reach_of_among (reached : Runs.Reach (· = {}) (AllowsAmong ts) (State.step c) s) :
    Runs.Reach (· = {}) (Allows c) (State.step c) s ∧ ∀ u ∉ ts, s.phase u = .idle := by
  induction reached with
  | start start =>
    cases start
    exact ⟨.start rfl, fun _ _ => rfl⟩
  | next e _ among stepped ih =>
    obtain ⟨reached, idle⟩ := ih
    refine ⟨.next e reached ?_ stepped, fun u outside => (step_outside outside among stepped).trans (idle u outside)⟩
    cases e with
    | test t =>
      intro k point _ _ _ u
      by_cases inside : u ∈ ts
      · exact among.2 u inside
      · rw [idle u inside]
        rfl
    | fetch t =>
      intro i u j fetching waiting
      by_cases inside : u ∈ ts
      · exact among.2 u inside j waiting i (by rw [fetching]; rfl)
      · rw [idle u inside] at waiting
        cases waiting
    | _ => trivial

end Among

/-- Two threads are in their calls at the same time, and each consumes one of the two change points. -/
theorem changePoints_once_two :
    ∃ s : State, s.consumed = [⟨1, 10, 0⟩, ⟨2, 20, 1⟩] ∧ s.lowered = [⟨2, 1, some 4, 1⟩, ⟨1, 0, some 3, 2⟩] ∧
      let c := randomize true 3 1 5 id fun i => 10 * (i + 1)
      OnceInOrder c s ∧ (∀ e, Due s e → Allows c s e → ∃ next, s.step c e = some next) ∧
        c.changePriorities.length = 2 ∧ c.changePriorities.Nodup ∧
        ∀ p ∈ c.changePriorities, ∀ q ∈ c.newThreadPriorities, c.Lower p q := by
  let c := randomize true 3 1 5 id fun i => 10 * (i + 1)
  have test : (Runs.follow (AllowsAmong [1, 2]) (State.step c) {} [.setStartInstCount true, .newThread 1, .newThread 2,
      .enter 1 10, .enter 2 10, .count 1, .test 1, .count 2, .advance 1, .test 2, .fetch 1, .advance 2, .fetch 2,
      .set 2, .set 1]).any (fun s => s.consumed = [⟨1, 10, 0⟩, ⟨2, 20, 1⟩] &&
        s.lowered = [⟨2, 1, some 4, 1⟩, ⟨1, 0, some 3, 2⟩]) = true := by
    decide +kernel
  obtain ⟨s, among, passed⟩ : ∃ s, Runs.Reach (· = ({} : State)) (AllowsAmong [1, 2]) (State.step c) s ∧ _ :=
    Runs.Reach.of_follow (by rfl) _ test
  rw [Bool.and_eq_true, decide_eq_true_eq, decide_eq_true_eq] at passed
  exact ⟨s, passed.1, passed.2,
    changePoints_once (fun l => List.Perm.refl l) (by decide) (reach_of_among among).1⟩

/-- Two calls read the cursor before either advances it: both consume the first change point, and
nobody the second. The calls of two threads may also take each other's change priority. -/
theorem changePoint_lost :
    let c := randomize true 3 1 5 id fun i => 10 * (i + 1)
    c.changePoints = [10, 20] ∧ c.changePriorities = [2, 1] ∧
    (∃ s, [Event.setStartInstCount true, .enter 1 10, .enter 2 10, .count 1, .count 2, .test 1, .test 2, .advance 1,
        .advance 2, .fetch 1, .set 1, .fetch 2, .set 2, .enter 3 10, .count 3, .test 3].foldlM (State.step c) {} =
          some s ∧ s.consumed = [⟨1, 10, 0⟩, ⟨2, 20, 0⟩] ∧ s.missed = [30] ∧ s.changePointsCursor = 2) ∧
    ∃ s, [Event.setStartInstCount true, .enter 1 10, .enter 2 10, .count 1, .count 2, .test 1, .advance 1, .test 2,
        .advance 2, .fetch 2, .set 2, .fetch 1, .set 1].foldlM (State.step c) {} = some s ∧
      s.consumed = [⟨1, 10, 0⟩, ⟨2, 20, 1⟩] ∧ s.lowered = [⟨2, 1, none, 2⟩, ⟨1, 0, none, 1⟩] :=
  ⟨by decide, by decide, ⟨_, rfl, rfl, rfl, rfl⟩, ⟨_, rfl, rfl, rfl⟩⟩

end Maple.Pct
