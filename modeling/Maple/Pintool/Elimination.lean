import Maple.Pintool.HybridSound
import Maple.Race.Growth

/-! The elimination of HistLockPlus keeps, of two records of one epoch, the one with
the larger lockset: what is removed can race with accesses that the kept one misses. -/
namespace Maple.Pintool
open Race

namespace Elpi
variable {r s u : Elpi}

theorem covers_iff : s.Covers r ↔ s.epoch = r.epoch ∧ ∀ a ∈ s.lockset, a ∈ r.lockset := by
  rw [Covers, Lockset.isSubsetOf_iff]

theorem Covers.refl (r : Elpi) : r.Covers r := covers_iff.mpr ⟨rfl, fun _ => id⟩

theorem Covers.trans (first : u.Covers s) (second : s.Covers r) : u.Covers r := by
  rw [covers_iff] at *
  exact ⟨first.1.trans second.1, fun a member => second.2 a (first.2 a member)⟩

/-- The test of the loops over the records. -/
def races (r : Elpi) (vc : VectorClock) (ls : Lockset) : Bool := !r.epoch.happensBefore vc && r.lockset.isDisjoint ls

theorem Covers.races (covers : s.Covers r) {vc : VectorClock} {ls : Lockset} (races : r.races vc ls = true) :
    s.races vc ls = true := by
  obtain ⟨epochs, subset⟩ := covers_iff.mp covers
  simp only [Elpi.races, Bool.and_eq_true, Lockset.isDisjoint_iff] at races ⊢
  exact ⟨by rw [epochs]; exact races.1, fun a member => races.2 a (subset a member)⟩

/-- The same epoch and strictly fewer locks. -/
def Below (r s : Elpi) : Prop := r.Covers s ∧ ¬ s.Covers r

theorem Below.of_covers (covers : s.Covers r) (below : r.Below u) : s.Below u :=
  ⟨covers.trans below.1, fun back => below.2 (back.trans covers)⟩

theorem equivalent_symm (same : r.equivalent s = true) : s.equivalent r = true := by
  simp only [equivalent, Bool.and_eq_true, decide_eq_true_eq] at same ⊢
  exact ⟨⟨same.1.1.symm, same.1.2.symm⟩, same.2.symm⟩

end Elpi

/-- Every record that is gone afterwards is covered by one that is still there. -/
def ElpiList.NothingLost (before after : ElpiList) : Prop :=
  ∀ it r, before.deref it = some r → after.deref it = none →
    ∃ it' s, before.deref it' = some s ∧ after.deref it' = some s ∧ s.Covers r

/-- What races with a record that is gone races with one that is still there. -/
def ElpiList.StillRaces (before after : ElpiList) : Prop :=
  ∀ it r vc ls, before.deref it = some r → after.deref it = none → r.races vc ls = true →
    ∃ it' s, after.deref it' = some s ∧ s.races vc ls = true

theorem ElpiList.NothingLost.stillRaces {before after : ElpiList} (nothingLost : before.NothingLost after) :
    before.StillRaces after := by
  intro it r vc ls found removed races
  obtain ⟨it', s, _, stays, covers⟩ := nothingLost it r found removed
  exact ⟨it', s, stays, covers.races races⟩

namespace ElpiHistory

/-- Each record of the thread's call site that holds fewer locks than another one there
is covered by a record that stays: one that is not of the call site, or one that
`iteratorcomp` does not tell from another one there. -/
def Spared (h : ElpiHistory) (curr : ThreadId) : Prop :=
  ∀ it ∈ (h.callsite curr).2, ∀ r, h.elpiList.deref it = some r →
    (∃ it' ∈ (h.callsite curr).2, ∃ s, h.elpiList.deref it' = some s ∧ r.Below s) →
    ∃ it' s, h.elpiList.deref it' = some s ∧ s.Covers r ∧ (it' ∉ (h.callsite curr).2 ∨
      ∃ twin ∈ (h.callsite curr).2, twin ≠ it' ∧ ∃ s', h.elpiList.deref twin = some s' ∧ s'.equivalent s = true)

section
variable {elpis : ElpiList} {iters : List ℕ} {myset last : List (ℕ × Elpi)} {it it2 : ℕ} {elpi elpi2 : Elpi}

/-- Some record that `iteratorcomp` does not tell from this one is collected. -/
def Has (myset : List (ℕ × Elpi)) (elpi : Elpi) : Prop := ∃ entry ∈ myset, entry.2.equivalent elpi = true

theorem has_insertIter (myset : List (ℕ × Elpi)) (it : ℕ) (elpi : Elpi) : Has (insertIter myset it elpi) elpi := by
  unfold insertIter
  split
  · next found => exact List.any_eq_true.mp found
  · exact ⟨(it, elpi), List.mem_cons_self, equivalent_self elpi⟩

theorem Has.insertIter (has : Has myset elpi) (it : ℕ) (elpi2 : Elpi) :
    Has (ElpiHistory.insertIter myset it elpi2) elpi := by
  unfold ElpiHistory.insertIter
  split
  · exact has
  · obtain ⟨entry, member, same⟩ := has
    exact ⟨entry, List.mem_cons_of_mem _ member, same⟩

/-- Whichever of the two holds fewer locks is collected. -/
def Decided (elpis : ElpiList) (myset : List (ℕ × Elpi)) (it it2 : ℕ) : Prop :=
  ∀ elpi elpi2, elpis.deref it = some elpi → elpis.deref it2 = some elpi2 →
    (elpi.Below elpi2 → Has myset elpi) ∧ (elpi2.Below elpi → Has myset elpi2)

instance : Std.Symm (Decided elpis myset) where
  symm _ _ decided elpi elpi2 found found2 := (decided elpi2 elpi found2 found).symm

theorem Decided.mono (decided : Decided elpis myset it it2) (grown : ∀ elpi, Has myset elpi → Has last elpi) :
    Decided elpis last it it2 := fun elpi elpi2 found found2 =>
  (decided elpi elpi2 found found2).imp (fun has below => grown _ (has below)) (fun has below => grown _ (has below))

theorem collectFrom_decides {rest : List ℕ} (ran : collectFrom elpis it myset rest = some last) :
    (∀ elpi, Has myset elpi → Has last elpi) ∧ ∀ it2 ∈ rest, Decided elpis last it it2 := by
  induction rest generalizing myset with
  | nil =>
    cases ran
    exact ⟨fun _ => id, nofun⟩
  | cons it2 rest ih =>
    obtain ⟨elpi, found, ran⟩ := Option.bind_eq_some_iff.mp ran
    obtain ⟨elpi2, found2, ran⟩ := Option.bind_eq_some_iff.mp ran
    simp only [Bool.and_eq_true, decide_eq_true_eq] at ran
    have first : ∀ middle, (∀ elpi, Has myset elpi → Has middle elpi) →
        ((elpi.Below elpi2 → Has middle elpi) ∧ (elpi2.Below elpi → Has middle elpi2)) →
        collectFrom elpis it middle rest = some last →
        (∀ elpi, Has myset elpi → Has last elpi) ∧ ∀ other ∈ it2 :: rest, Decided elpis last it other := by
      intro middle grown decided ran
      obtain ⟨onwards, others⟩ := ih ran
      refine ⟨fun elpi has => onwards _ (grown _ has), List.forall_mem_cons.mpr ⟨?_, others⟩⟩
      have here : Decided elpis middle it it2 := by
        intro _ _ found' found2'
        cases found.symm.trans found'
        cases found2.symm.trans found2'
        exact decided
      exact here.mono onwards
    split at ran
    · next covers =>
        exact first _ (fun _ has => has.insertIter it elpi) ⟨fun _ => has_insertIter .., fun below => absurd covers below.2⟩ ran
    · next covers =>
        split at ran
        · exact first _ (fun _ has => has.insertIter it2 elpi2)
            ⟨fun below => absurd below.1 covers, fun _ => has_insertIter ..⟩ ran
        · next covered =>
            exact first _ (fun _ => id)
              ⟨fun below => absurd below.1 covers, fun below => absurd ⟨below.1.1.symm, below.1.2⟩ covered⟩ ran

theorem collect_decides {rest : List ℕ} (ran : collect elpis myset rest = some last) :
    (∀ elpi, Has myset elpi → Has last elpi) ∧ rest.Pairwise (Decided elpis last) := by
  induction rest generalizing myset with
  | nil =>
    cases ran
    exact ⟨fun _ => id, .nil⟩
  | cons it rest ih =>
    obtain ⟨middle, entered, ran⟩ := Option.bind_eq_some_iff.mp ran
    obtain ⟨grown, decided⟩ := collectFrom_decides entered
    obtain ⟨onwards, others⟩ := ih ran
    exact ⟨fun elpi has => onwards _ (grown _ has),
      List.pairwise_cons.mpr ⟨fun it2 member => (decided it2 member).mono onwards, others⟩⟩

/-- The record is covered by another one of the call site, a later one if the two have
the same locks. -/
def Loses (elpis : ElpiList) (iters : List ℕ) (it : ℕ) (elpi : Elpi) : Prop :=
  ∃ it2 ∈ iters, ∃ elpi2, elpis.deref it2 = some elpi2 ∧ elpi.Covers elpi2 ∧ (it < it2 ∨ ¬ elpi2.Covers elpi)

/-- What the elimination has collected: losers, and no two that `iteratorcomp` identifies. -/
structure Culled (elpis : ElpiList) (iters : List ℕ) (myset : List (ℕ × Elpi)) : Prop
    extends Collected elpis iters myset where
  apart : myset.Pairwise fun e f => ¬ e.2.equivalent f.2 = true
  loses : ∀ entry ∈ myset, Loses elpis iters entry.1 entry.2

theorem Culled.insertIter (culled : Culled elpis iters myset) (member : it ∈ iters)
    (found : elpis.deref it = some elpi) (loses : Loses elpis iters it elpi) :
    Culled elpis iters (insertIter myset it elpi) := by
  refine ⟨culled.toCollected.insertIter member found, ?_, ?_⟩
  · unfold ElpiHistory.insertIter
    split
    · exact culled.apart
    · next fresh =>
        refine List.pairwise_cons.mpr ⟨fun entry inside same => fresh ?_, culled.apart⟩
        exact List.any_eq_true.mpr ⟨entry, inside, Elpi.equivalent_symm same⟩
  · unfold ElpiHistory.insertIter
    split
    · exact culled.loses
    · exact List.forall_mem_cons.mpr ⟨loses, culled.loses⟩

theorem collect_culls (valid : ∀ it ∈ iters, ∃ elpi, elpis.deref it = some elpi) (sorted : iters.Pairwise (· < ·)) :
    ∃ last, collect elpis [] iters = some last ∧ Culled elpis iters last := by
  apply collect_rule (R := (· < ·)) _ valid iters (fun _ member => member) sorted
    ⟨.empty, List.Pairwise.nil, nofun⟩
  intro myset it it2 elpi elpi2 member member2 found found2 covers either culled
  exact culled.insertIter member found ⟨it2, member2, elpi2, found2, covers, either⟩

end

/-- The iterators of a call site are in the order of insertion; between two releases a
thread only adds locks. -/
structure Ordered (vcs : OrdMap ThreadId VectorClock) (own : HistLockPlusOwn) (h : ElpiHistory) : Prop where
  below : ∀ it elpi, h.elpiList.deref it = some elpi → it < h.elpiList.inserted
  valid : ∀ t, ∀ it ∈ (h.callsite t).2, ∃ elpi, h.elpiList.deref it = some elpi ∧ elpi.epoch.tid = t
  sorted : ∀ t, (h.callsite t).2.Pairwise (· < ·)
  started : ∀ it elpi, h.elpiList.deref it = some elpi → elpi.epoch.tid ∈ vcs
  counted : ∀ it elpi, h.elpiList.deref it = some elpi →
    elpi.releaseCnt ≤ HistLockPlus.releaseCntOf own elpi.epoch.tid ∧
    (elpi.releaseCnt = HistLockPlus.releaseCntOf own elpi.epoch.tid →
      ∀ a ∈ elpi.lockset, a ∈ MultiLock.locksetOf own.locksetMap elpi.epoch.tid)
  growing : ∀ it it' elpi elpi', it < it' → h.elpiList.deref it = some elpi → h.elpiList.deref it' = some elpi' →
    elpi.epoch.tid = elpi'.epoch.tid → elpi.releaseCnt = elpi'.releaseCnt → ∀ a ∈ elpi.lockset, a ∈ elpi'.lockset

section
variable {vcs : OrdMap ThreadId VectorClock} {own : HistLockPlusOwn} {h next : ElpiHistory} {curr : ThreadId}
  {callsite : Address} {it it' : ℕ} {r s : Elpi}

/-- Records that `iteratorcomp` identifies are the same up to their place. -/
theorem Ordered.covers_of_equivalent (ordered : h.Ordered vcs own) (found : h.elpiList.deref it = some r)
    (found' : h.elpiList.deref it' = some s) (same : r.equivalent s = true) : r.Covers s := by
  simp only [Elpi.equivalent, Bool.and_eq_true, decide_eq_true_eq, instKey, InstKey.mk.injEq] at same
  obtain ⟨⟨⟨epochs, sizes, _⟩, counts⟩, _⟩ := same
  rcases Nat.lt_trichotomy it it' with earlier | rfl | later
  · exact Elpi.covers_iff.mpr ⟨epochs, ordered.growing it it' r s earlier found found' (by rw [epochs]) counts⟩
  · cases found.symm.trans found'
    exact .refl r
  · have subset := ordered.growing it' it s r later found' found (by rw [epochs]) counts.symm
    have matches_ : s.lockset.isMatch r.lockset = true := by
      rw [Lockset.isMatch, if_neg (not_not.mpr sizes.symm)]
      exact Lockset.all_isExist_iff.mpr subset
    exact Elpi.covers_iff.mpr ⟨epochs, fun a member => (Lockset.isMatch_iff.mp matches_) ▸ member⟩

/-- After the elimination some record covers each one that has no larger one at the call site. -/
theorem Ordered.survivor {myset : List (ℕ × Elpi)} {after : ElpiList} (ordered : h.Ordered vcs own)
    (culled : Culled h.elpiList (h.callsite curr).2 myset)
    (frame : ∀ it, (∀ entry ∈ myset, entry.1 ≠ it) → after.deref it = h.elpiList.deref it)
    (found : h.elpiList.deref it = some r)
    (maximal : ∀ it' ∈ (h.callsite curr).2, ∀ s, h.elpiList.deref it' = some s → ¬ r.Below s) :
    ∃ it' s, h.elpiList.deref it' = some s ∧ after.deref it' = some s ∧ s.Covers r := by
  -- The last record with the same locks is not collected.
  induction left : h.elpiList.inserted - it using Nat.strong_induction_on generalizing it r with
  | _ n ih =>
    by_cases collected : ∃ entry ∈ myset, entry.1 = it
    · obtain ⟨entry, member, rfl⟩ := collected
      cases found.symm.trans (culled.there entry member).2
      obtain ⟨it2, member2, s, found2, covers, either⟩ := culled.loses entry member
      have back : s.Covers entry.2 := by
        by_contra strict
        exact maximal it2 member2 s found2 ⟨covers, strict⟩
      have later : entry.1 < it2 := either.resolve_right (not_not.mpr back)
      have bound := ordered.below it2 s found2
      obtain ⟨it', u, foundU, stays, coversU⟩ := ih (h.elpiList.inserted - it2) (by omega) found2
        (fun it' member' u foundU below => maximal it' member' u foundU (below.of_covers covers)) rfl
      exact ⟨it', u, foundU, stays, coversU.trans back⟩
    · have stays := frame it fun entry member same => collected ⟨entry, member, same⟩
      exact ⟨it, r, found, stays.trans found, .refl r⟩

theorem Ordered.erased {myset : List (ℕ × Elpi)} {after : ElpiList} (ordered : h.Ordered vcs own)
    (collected : Collected h.elpiList (h.callsite curr).2 myset) (inserted : after.inserted = h.elpiList.inserted)
    (origin : ∀ it elpi, after.deref it = some elpi → h.elpiList.deref it = some elpi)
    (frame : ∀ it, (∀ entry ∈ myset, entry.1 ≠ it) → after.deref it = h.elpiList.deref it) :
    Ordered vcs own ⟨after, h.callsiteElpiMap.insert curr (callsite, [])⟩ := by
  constructor
  case below =>
    intro it elpi found
    rw [inserted]
    exact ordered.below it elpi (origin it elpi found)
  case valid =>
    intro t it member
    simp only [ElpiHistory.callsite, getElem?_insert_thread] at member
    split at member
    · cases member
    · next other =>
        obtain ⟨elpi, found, tid⟩ := ordered.valid t it member
        refine ⟨elpi, ?_, tid⟩
        rw [frame it, found]
        rintro entry inside rfl
        obtain ⟨elpi', found', tid'⟩ := ordered.valid curr entry.1 (collected.there entry inside).1
        cases found.symm.trans found'
        exact other (tid'.symm.trans tid)
  case sorted =>
    intro t
    simp only [ElpiHistory.callsite, getElem?_insert_thread]
    split
    · exact List.Pairwise.nil
    · exact ordered.sorted t
  case started => exact fun it elpi found => ordered.started it elpi (origin it elpi found)
  case counted => exact fun it elpi found => ordered.counted it elpi (origin it elpi found)
  case growing =>
    exact fun it it' elpi elpi' before found found' =>
      ordered.growing it it' elpi elpi' before (origin it elpi found) (origin it' elpi' found')

/-- The elimination of a call site loses nothing exactly if the call site is spared. -/
theorem Ordered.eliminate (ordered : h.Ordered vcs own) (changed : (h.callsite curr).1 ≠ callsite) :
    ∃ next, h.eliminate curr callsite = some next ∧ next.Ordered vcs own ∧
      next.elpiList.inserted = h.elpiList.inserted ∧
      (h.elpiList.NothingLost next.elpiList ↔ h.Spared curr) := by
  have valid : ∀ it ∈ (h.callsite curr).2, ∃ elpi, h.elpiList.deref it = some elpi := by
    intro it member
    obtain ⟨elpi, found, -⟩ := ordered.valid curr it member
    exact ⟨elpi, found⟩
  obtain ⟨myset, ran, culled⟩ := collect_culls valid (ordered.sorted curr)
  obtain ⟨last, erased, inserted, origin, gone, frame⟩ := ElpiList.eraseAll_spec myset culled.distinct
    fun entry member => (culled.there entry member).2
  have decided := (collect_decides ran).2
  have has : ∀ it ∈ (h.callsite curr).2, ∀ it' ∈ (h.callsite curr).2, ∀ r s, h.elpiList.deref it = some r →
      h.elpiList.deref it' = some s → r.Below s → Has myset r := by
    intro it member it' member' r s found found' below
    have apart : it ≠ it' := by
      rintro rfl
      cases found.symm.trans found'
      exact below.2 (.refl r)
    exact (decided.forall member member' apart r s found found').1 below
  refine ⟨⟨last, h.callsiteElpiMap.insert curr (callsite, [])⟩, ?_, ?_, inserted, ?_⟩
  · simp only [ElpiHistory.eliminate, if_pos changed, ran, erased, Option.bind_eq_bind, Option.bind_some]
    rfl
  · exact ordered.erased culled.toCollected inserted origin frame
  · constructor
    · intro nothingLost it member r found ⟨it', member', s, found', below⟩
      obtain ⟨entry, inside, same⟩ := has it member it' member' r s found found' below
      obtain ⟨own', there⟩ := culled.there entry inside
      obtain ⟨it₂, u, foundU, stays, covers⟩ := nothingLost entry.1 entry.2 there (gone entry inside)
      have covered : u.Covers r := covers.trans (ordered.covers_of_equivalent there found same)
      refine ⟨it₂, u, foundU, covered, ?_⟩
      by_cases listed : it₂ ∈ (h.callsite curr).2
      · -- It has fewer locks than `s`, too, so a twin was collected in its place.
        obtain ⟨twin, inside', same'⟩ := has it₂ listed it' member' u s foundU found' (below.of_covers covered)
        obtain ⟨ownTwin, thereTwin⟩ := culled.there twin inside'
        refine Or.inr ⟨twin.1, ownTwin, ?_, twin.2, thereTwin, same'⟩
        rintro rfl
        exact nomatch stays.symm.trans (gone twin inside')
      · exact Or.inl listed
    · intro spared it r found removed
      have collected : ∃ entry ∈ myset, entry.1 = it := by
        by_contra none_
        have stays := frame it fun entry member same => none_ ⟨entry, member, same⟩
        exact nomatch removed.symm.trans (stays.trans found)
      obtain ⟨entry, member, rfl⟩ := collected
      have own' := (culled.there entry member).1
      by_cases larger : ∃ it' ∈ (h.callsite curr).2, ∃ s, h.elpiList.deref it' = some s ∧ r.Below s
      · obtain ⟨it', s, found', covers, either⟩ := spared entry.1 own' r found larger
        by_cases kept : ∀ entry ∈ myset, entry.1 ≠ it'
        · exact ⟨it', s, found', (frame it' kept).trans found', covers⟩
        · -- At most one of two twins is collected.
          obtain ⟨first, inside, rfl⟩ : ∃ entry ∈ myset, entry.1 = it' := by
            simpa only [not_forall, not_not, exists_prop] using kept
          obtain ⟨ownFirst, thereFirst⟩ := culled.there first inside
          cases found'.symm.trans thereFirst
          obtain ⟨twin, _, other, u, foundTwin, same⟩ := either.resolve_left (not_not.mpr ownFirst)
          have keptTwin : ∀ entry ∈ myset, entry.1 ≠ twin := by
            rintro second inside' rfl
            cases foundTwin.symm.trans (culled.there second inside').2
            have distinct : second ≠ first := fun pair => other (congrArg Prod.fst pair)
            have symm : Std.Symm fun e f : ℕ × Elpi => ¬ e.2.equivalent f.2 = true :=
              ⟨fun _ _ apart same => apart (Elpi.equivalent_symm same)⟩
            exact culled.apart.forall inside' inside distinct same
          exact ⟨twin, u, foundTwin, (frame twin keptTwin).trans foundTwin,
            (ordered.covers_of_equivalent foundTwin found' same).trans covers⟩
      · exact ordered.survivor culled frame found fun it' member' s found' below =>
          larger ⟨it', member', s, found', below⟩

end
end ElpiHistory
end Maple.Pintool
