import Maple.Idiom.PairSearch

/-! Prediction is exact: whichever of two accesses is summarised last finds the other. -/
namespace Maple.Idiom

/-- A dependency from one summary to another, where these have the given clocks. -/
def Depends (atomicInstSet : InstId → Bool) (src dst : AccSum) (vs ws : List VectorClock) : Prop :=
  src.metaId = dst.metaId ∧ src.thdId ≠ dst.thdId ∧ Accepts atomicInstSet src dst ∧
    ∃ v ∈ vs, ∃ w ∈ ws, Incomparable v w

theorem depends_right {atomicInstSet : InstId → Bool} {src dst : AccSum} {vs ws ws' : List VectorClock}
    {vc : VectorClock} (split : ∀ w, w ∈ ws ↔ w ∈ ws' ∨ w = vc) :
    Depends atomicInstSet src dst vs ws ↔ Depends atomicInstSet src dst vs ws' ∨
      src.metaId = dst.metaId ∧ src.thdId ≠ dst.thdId ∧ Accepts atomicInstSet src dst ∧ ∃ v ∈ vs, Incomparable v vc := by
  simp only [Depends, ← and_or_left]
  refine and_congr_right fun _ => and_congr_right fun _ => and_congr_right fun _ => ?_
  constructor
  · rintro ⟨v, member, w, member', apart⟩
    rcases (split w).mp member' with before | rfl
    · exact Or.inl ⟨v, member, w, before, apart⟩
    · exact Or.inr ⟨v, member, apart⟩
  · rintro (⟨v, member, w, before, apart⟩ | ⟨v, member, apart⟩)
    · exact ⟨v, member, w, (split w).mpr (Or.inl before), apart⟩
    · exact ⟨v, member, vc, (split vc).mpr (Or.inr rfl), apart⟩

theorem depends_left {atomicInstSet : InstId → Bool} {src dst : AccSum} {vs vs' ws : List VectorClock}
    {vc : VectorClock} (split : ∀ v, v ∈ vs ↔ v ∈ vs' ∨ v = vc) :
    Depends atomicInstSet src dst vs ws ↔ Depends atomicInstSet src dst vs' ws ∨
      src.metaId = dst.metaId ∧ src.thdId ≠ dst.thdId ∧ Accepts atomicInstSet src dst ∧ ∃ w ∈ ws, Incomparable vc w := by
  simp only [Depends, ← and_or_left]
  refine and_congr_right fun _ => and_congr_right fun _ => and_congr_right fun _ => ?_
  constructor
  · rintro ⟨v, member, w, member', apart⟩
    rcases (split v).mp member with before | rfl
    · exact Or.inl ⟨v, before, w, member', apart⟩
    · exact Or.inr ⟨w, member', apart⟩
  · rintro (⟨v, before, w, member', apart⟩ | ⟨w, member', apart⟩)
    · exact ⟨v, (split v).mpr (Or.inl before), w, member', apart⟩
    · exact ⟨vc, (split vc).mpr (Or.inr rfl), w, member', apart⟩

/-- What a summary is told of an access. -/
structure Access where
  metaId : MetaId
  thdId : ThreadId
  thdClk : ℕ
  type : IRootEventType
  inst : InstId
  vc : VectorClock

def DynAcc.access (dynAcc : DynAcc) : Access :=
  ⟨dynAcc.metaId, dynAcc.thdId, dynAcc.thdClk, dynAcc.type, dynAcc.inst, dynAcc.vc⟩

/-- The summary is about the thread, the instruction and the kind of the access. -/
structure Fields (a : AccSum) (access : Access) : Prop where
  metaId : a.metaId = access.metaId
  thdId : a.thdId = access.thdId
  type : a.type = access.type
  inst : a.inst = access.inst

namespace PredictorNew

/-- The summaries of a meta and a thread. -/
def sumsOf (p : PredictorNew) (metaId : MetaId) (thdId : ThreadId) : List ℕ :=
  (p.accHisto metaId).accSumTable[thdId]?.getD []

/-- What the summaries look like: `cl` gives the clocks that the recorded pairs are about. -/
structure SumsInv (atomicInstSet : InstId → Bool) (cl : ℕ → AccSum → List VectorClock) (p : PredictorNew) :
    Prop where
  table : ∀ m t s, s ∈ p.sumsOf m t ↔ ∃ a, p.accSums[s]? = some a ∧ a.metaId = m ∧ a.thdId = t
  nonempty : ∀ (s : ℕ) a, p.accSums[s]? = some a → a.clocks ≠ []
  ordered : ∀ (s : ℕ) a, p.accSums[s]? = some a → a.clocks.Pairwise fun v w => v.happensBefore w = true
  current : ∀ (s : ℕ) a, p.accSums[s]? = some a →
    ∃ vc, p.sync.currVcMap[a.thdId]? = some vc ∧ ∀ v ∈ a.clocks, v.happensBefore vc = true
  wf : p.pairs.Wf
  known : ∀ s d, d ∈ p.pairs.succOf s → s < p.accSums.length ∧ d < p.accSums.length
  pairs : ∀ (s d : ℕ) a b, p.accSums[s]? = some a → p.accSums[d]? = some b →
    (d ∈ p.pairs.succOf s ↔ Depends atomicInstSet a b (cl s a) (cl d b))

/-- All clocks of a summary. -/
abbrev allClocks (_ : ℕ) (a : AccSum) : List VectorClock := a.clocks

/-- The clocks of a summary before the new one. -/
def clocksBefore (curr : ℕ) (s : ℕ) (a : AccSum) : List VectorClock :=
  if s = curr then a.clocks.dropLast else a.clocks

variable {atomicInstSet : InstId → Bool} {ptrs : Pointers} {p next : PredictorNew} {dynAcc : DynAcc} {curr : ℕ}
  {cl : ℕ → AccSum → List VectorClock}

theorem mem_remotes {m : MetaId} {t : ThreadId} {s : ℕ}
    (table : ∀ u s, s ∈ p.sumsOf m u ↔ ∃ a, p.accSums[s]? = some a ∧ a.metaId = m ∧ a.thdId = u) :
    s ∈ p.remotes m t ↔ ∃ a, p.accSums[s]? = some a ∧ a.metaId = m ∧ a.thdId ≠ t := by
  simp only [remotes, List.mem_flatMap, List.mem_filter, decide_eq_true_eq, Prod.exists,
    Std.ExtTreeMap.mem_toList_iff_getElem?_eq_some]
  constructor
  · rintro ⟨u, ids, ⟨stored, other⟩, member⟩
    have listed : s ∈ p.sumsOf m u := by
      rw [sumsOf, stored]
      exact member
    obtain ⟨a, found, same, rfl⟩ := (table u s).mp listed
    exact ⟨a, found, same, other⟩
  · rintro ⟨a, found, same, other⟩
    have listed := (table a.thdId s).mpr ⟨a, found, same, rfl⟩
    rw [sumsOf] at listed
    cases stored : (p.accHisto m).accSumTable[a.thdId]? with
    | none => simp [stored] at listed
    | some ids =>
      rw [stored] at listed
      exact ⟨a.thdId, ids, ⟨stored, other⟩, listed⟩

theorem SumsInv.mem_remotes (inv : p.SumsInv atomicInstSet cl) {m : MetaId} {t : ThreadId} {s : ℕ} :
    s ∈ p.remotes m t ↔ ∃ a, p.accSums[s]? = some a ∧ a.metaId = m ∧ a.thdId ≠ t :=
  PredictorNew.mem_remotes (inv.table m)

/-- The search adds the pairs of the newest clock. -/
theorem SumsInv.search (dynAcc : DynAcc) {currAccSum : AccSum} (inv : p.SumsInv atomicInstSet (clocksBefore curr))
    (found : p.accSums[curr]? = some currAccSum) (meta_ : currAccSum.metaId = dynAcc.metaId)
    (newest : currAccSum.clocks.getLast? = some dynAcc.vc) :
    ∃ pairs, p.search atomicInstSet dynAcc curr = some { p with pairs := pairs } ∧
      ({ p with pairs := pairs } : PredictorNew).SumsInv atomicInstSet allClocks := by
  have remote : ∀ rmt ∈ p.remotes dynAcc.metaId currAccSum.thdId,
      ∃ a, p.accSums[rmt]? = some a ∧ currAccSum.metaId = a.metaId := by
    intro rmt member
    obtain ⟨a, foundRmt, same, _⟩ := inv.mem_remotes.mp member
    exact ⟨a, foundRmt, meta_.trans same.symm⟩
  obtain ⟨pairs, ran, wf, recorded⟩ := searchLoop_spec atomicInstSet dynAcc.vc inv.wf found remote
  have split : ∀ v, v ∈ currAccSum.clocks ↔ v ∈ currAccSum.clocks.dropLast ∨ v = dynAcc.vc := by
    intro v
    conv_lhs => rw [← List.dropLast_append_getLast? _ newest]
    simp
  refine ⟨pairs, by simp only [PredictorNew.search, found, ran, Option.bind_eq_bind, Option.bind_some]; rfl,
    inv.table, inv.nonempty, inv.ordered, inv.current, wf, fun s d member => ?_, fun s d a b foundS foundD => ?_⟩
  · rcases (recorded s d).mp member with before | ⟨rmt, _, other, foundRmt, _, ⟨rfl, rfl, _⟩ | ⟨rfl, rfl, _⟩⟩
    · exact inv.known s d before
    · exact ⟨(List.getElem?_eq_some_iff.mp foundRmt).1, (List.getElem?_eq_some_iff.mp found).1⟩
    · exact ⟨(List.getElem?_eq_some_iff.mp found).1, (List.getElem?_eq_some_iff.mp foundRmt).1⟩
  · have before := inv.pairs s d a b foundS foundD
    rw [recorded, before]
    by_cases own : d = curr
    · subst own
      cases found.symm.trans foundD
      by_cases own' : s = d
      · subst own'
        cases found.symm.trans foundS
        refine iff_of_false ?_ fun depends => depends.2.1 rfl
        rintro (depends | ⟨rmt, member, other, foundRmt, _, either⟩)
        · exact depends.2.1 rfl
        · obtain ⟨_, foundRmt', _, apart⟩ := inv.mem_remotes.mp member
          cases foundRmt.symm.trans foundRmt'
          rcases either with ⟨rfl, _⟩ | ⟨_, rfl, _⟩
          · cases found.symm.trans foundRmt
            exact apart rfl
          · cases found.symm.trans foundRmt
            exact apart rfl
      · rw [depends_right split, clocksBefore, if_neg own', clocksBefore, if_pos rfl]
        apply or_congr_right
        constructor
        · rintro ⟨rmt, member, other, foundRmt, concurrent, ⟨rfl, -, accepts⟩ | ⟨rfl, -⟩⟩
          · cases foundS.symm.trans foundRmt
            obtain ⟨_, foundRmt', same, apart⟩ := inv.mem_remotes.mp member
            cases foundRmt.symm.trans foundRmt'
            exact ⟨same.trans meta_.symm, apart, accepts, (checkConcurrent_iff (inv.ordered s _ foundS)).mp concurrent⟩
          · exact absurd rfl own'
        · rintro ⟨same, apart, accepts, incomparable⟩
          exact ⟨s, inv.mem_remotes.mpr ⟨a, foundS, same.trans meta_, apart⟩, a, foundS,
            (checkConcurrent_iff (inv.ordered s a foundS)).mpr incomparable, Or.inl ⟨rfl, rfl, accepts⟩⟩
    · by_cases own' : s = curr
      · subst own'
        cases found.symm.trans foundS
        rw [depends_left split, clocksBefore, if_pos rfl, clocksBefore, if_neg own]
        apply or_congr_right
        constructor
        · rintro ⟨rmt, member, other, foundRmt, concurrent, ⟨-, rfl, -⟩ | ⟨-, rfl, accepts⟩⟩
          · exact absurd rfl own
          · cases foundD.symm.trans foundRmt
            obtain ⟨_, foundRmt', same, apart⟩ := inv.mem_remotes.mp member
            cases foundRmt.symm.trans foundRmt'
            obtain ⟨w, member', incomparable⟩ := (checkConcurrent_iff (inv.ordered d _ foundD)).mp concurrent
            exact ⟨meta_.trans same.symm, apart.symm, accepts, w, member', incomparable.symm⟩
        · rintro ⟨same, apart, accepts, w, member', incomparable⟩
          exact ⟨d, inv.mem_remotes.mpr ⟨b, foundD, same.symm.trans meta_, apart.symm⟩, b, foundD,
            (checkConcurrent_iff (inv.ordered d b foundD)).mpr ⟨w, member', incomparable.symm⟩,
            Or.inr ⟨rfl, rfl, accepts⟩⟩
      · rw [clocksBefore, if_neg own', clocksBefore, if_neg own]
        apply or_iff_left
        rintro ⟨rmt, _, other, _, _, ⟨_, rfl, _⟩ | ⟨rfl, _⟩⟩
        · exact own rfl
        · exact own' rfl

/-- The clock of an access fits behind the clocks of its thread's summaries. -/
structure Fits (p : PredictorNew) (dynAcc : DynAcc) : Prop where
  later : ∀ (s : ℕ) a, p.accSums[s]? = some a → a.metaId = dynAcc.metaId → a.thdId = dynAcc.thdId →
    ∀ v ∈ a.clocks, v.happensBefore dynAcc.vc = true
  current : ∃ vc, p.sync.currVcMap[dynAcc.thdId]? = some vc ∧ dynAcc.vc.happensBefore vc = true

/-- An access was summarised by `s`. -/
structure Summarised (p next : PredictorNew) (dynAcc : DynAcc) (s : ℕ) : Prop where
  sync : next.sync = p.sync
  last : ∀ m, (next.accHisto m).lastDynAccTable = (p.accHisto m).lastDynAccTable
  others : ∀ i, i ≠ s → next.accSums[i]? = p.accSums[i]?
  fields : ∀ old, p.accSums[s]? = some old → Fields old dynAcc.access
  summary : ∃ a, next.accSums[s]? = some a ∧ Fields a dynAcc.access ∧
    ∀ v, v ∈ a.clocks ↔ v = dynAcc.vc ∨ ∃ old, p.accSums[s]? = some old ∧ v ∈ old.clocks

theorem matchAccSum_spec {s : ℕ} (found : p.matchAccSum ptrs dynAcc = some s) :
    ∃ a, p.accSums[s]? = some a ∧ Fields a dynAcc.access := by
  unfold matchAccSum at found
  have holds := List.find?_some found
  obtain ⟨a, stored, passed⟩ := (Option.any_eq_true _ _).mp holds
  simp only [Bool.and_eq_true, decide_eq_true_eq] at passed
  obtain ⟨⟨⟨⟨meta_, thd⟩, type⟩, inst⟩, -⟩ := passed
  exact ⟨a, stored, ⟨meta_, thd, type, inst⟩⟩

section Set
variable {s : ℕ} {a : AccSum} {tinfo : List (VectorClock × ThdClkInfo)}

theorem getElem?_setTinfo (found : p.accSums[s]? = some a) (i : ℕ) :
    (p.setTinfo s a tinfo).accSums[i]? = if s = i then some { a with tinfo := tinfo } else p.accSums[i]? := by
  have bound := (List.getElem?_eq_some_iff.mp found).1
  rw [setTinfo, List.getElem?_set, if_pos bound]

/-- Other clocks do not change what a summary is about. -/
theorem table_setTinfo (found : p.accSums[s]? = some a) {m : MetaId} {t : ThreadId} {i : ℕ} :
    (∃ b, (p.setTinfo s a tinfo).accSums[i]? = some b ∧ b.metaId = m ∧ b.thdId = t) ↔
      ∃ b, p.accSums[i]? = some b ∧ b.metaId = m ∧ b.thdId = t := by
  rw [getElem?_setTinfo found]
  split
  · next same =>
      subst same
      rw [found]
      simp only [Option.some.injEq, exists_eq_left']
  · rfl

/-- New clocks of one summary, of which the pairs know the old ones. -/
theorem SumsInv.setTinfo (inv : p.SumsInv atomicInstSet allClocks) (found : p.accSums[s]? = some a)
    (nonempty : tinfo.map Prod.fst ≠ []) (ordered : (tinfo.map Prod.fst).Pairwise fun v w => v.happensBefore w = true)
    (current : ∃ vc, p.sync.currVcMap[a.thdId]? = some vc ∧ ∀ v ∈ tinfo.map Prod.fst, v.happensBefore vc = true)
    (before : cl s { a with tinfo := tinfo } = a.clocks) (others : ∀ i b, i ≠ s → cl i b = b.clocks) :
    (p.setTinfo s a tinfo).SumsInv atomicInstSet cl := by
  have known : ∀ (i : ℕ) b, (p.setTinfo s a tinfo).accSums[i]? = some b →
      i = s ∧ b = { a with tinfo := tinfo } ∨ i ≠ s ∧ p.accSums[i]? = some b := by
    intro i b stored
    rw [getElem?_setTinfo found] at stored
    split at stored
    · next same => exact Or.inl ⟨same.symm, (Option.some.inj stored).symm⟩
    · next other => exact Or.inr ⟨Ne.symm other, stored⟩
  have old : ∀ (i : ℕ) b, (p.setTinfo s a tinfo).accSums[i]? = some b →
      ∃ b', p.accSums[i]? = some b' ∧ b'.clocks = cl i b ∧ (b.metaId = b'.metaId ∧ b.thdId = b'.thdId ∧
        (b.type = b'.type ∧ b.fls = b'.fls ∧ b.inst = b'.inst)) := by
    intro i b stored
    rcases known i b stored with ⟨rfl, rfl⟩ | ⟨other, stored⟩
    · exact ⟨a, found, before.symm, rfl, rfl, rfl, rfl, rfl⟩
    · exact ⟨b, stored, (others i b other).symm, rfl, rfl, rfl, rfl, rfl⟩
  constructor
  case table =>
    intro m t i
    rw [table_setTinfo found]
    exact inv.table m t i
  case nonempty =>
    intro i b stored
    rcases known i b stored with ⟨rfl, rfl⟩ | ⟨_, stored⟩
    · exact nonempty
    · exact inv.nonempty i b stored
  case ordered =>
    intro i b stored
    rcases known i b stored with ⟨rfl, rfl⟩ | ⟨_, stored⟩
    · exact ordered
    · exact inv.ordered i b stored
  case current =>
    intro i b stored
    rcases known i b stored with ⟨rfl, rfl⟩ | ⟨_, stored⟩
    · exact current
    · exact inv.current i b stored
  case wf => exact inv.wf
  case known =>
    intro src dst member
    have bounds := inv.known src dst member
    simpa [PredictorNew.setTinfo] using bounds
  case pairs =>
    intro src dst b c foundB foundC
    obtain ⟨b', foundB, clocksB, sameB⟩ := old src b foundB
    obtain ⟨c', foundC, clocksC, sameC⟩ := old dst c foundC
    have recorded := inv.pairs src dst b' c' foundB foundC
    simp only [allClocks, clocksB, clocksC, Depends, Accepts, checkAtomic] at recorded
    change dst ∈ p.pairs.succOf src ↔ _
    simpa only [Depends, Accepts, checkAtomic, sameB, sameC] using recorded

end Set

section Create

theorem getElem?_createAccSum (ptrs : Pointers) (i : ℕ) :
    (p.createAccSum ptrs dynAcc).accSums[i]? =
      if i = p.accSums.length then
        some ⟨dynAcc.metaId, dynAcc.thdId, dynAcc.type, dynAcc.inst, dynAcc.fls,
          [(dynAcc.vc, ⟨dynAcc.thdClk, dynAcc.thdClk⟩)]⟩
      else p.accSums[i]? := by
  rw [createAccSum, List.getElem?_append]
  split
  · next bound => rw [if_neg bound.ne]
  · next bound =>
      split
      · next last => simp [last]
      · next other =>
          rw [List.getElem?_eq_none (by simp; omega), List.getElem?_eq_none (by omega)]

theorem accHisto_createAccSum (m : MetaId) :
    (p.createAccSum ptrs dynAcc).accHisto m =
      if dynAcc.metaId = m then
        { p.accHisto m with
          accSumTable := (p.accHisto m).accSumTable.insert dynAcc.thdId
            (p.sumsOf m dynAcc.thdId ++ [p.accSums.length]) }
      else p.accHisto m := by
  simp only [accHisto, createAccSum, Std.ExtTreeMap.getElem?_insert, Nat.compare_eq_eq]
  split
  · next same =>
      subst same
      rfl
  · rfl

theorem sumsOf_createAccSum (m : MetaId) (t : ThreadId) :
    (p.createAccSum ptrs dynAcc).sumsOf m t =
      if dynAcc.metaId = m ∧ dynAcc.thdId = t then p.sumsOf m t ++ [p.accSums.length] else p.sumsOf m t := by
  rw [sumsOf, accHisto_createAccSum]
  by_cases same : dynAcc.metaId = m
  · by_cases own : dynAcc.thdId = t
    · subst own
      simp [same]
    · simp [same, own, sumsOf]
  · simp [same, sumsOf]

theorem accHisto_setLastDynAcc (p : PredictorNew) (dynAcc : DynAcc) (m : MetaId) :
    (p.setLastDynAcc dynAcc).accHisto m =
      if dynAcc.metaId = m then
        { p.accHisto m with lastDynAccTable := (p.accHisto m).lastDynAccTable.insert dynAcc.thdId dynAcc }
      else p.accHisto m := by
  simp only [PredictorNew.accHisto, PredictorNew.setLastDynAcc, Std.ExtTreeMap.getElem?_insert, Nat.compare_eq_eq]
  split
  · next same =>
      subst same
      rfl
  · rfl

theorem sumsOf_setLastDynAcc (p : PredictorNew) (dynAcc : DynAcc) (m : MetaId) (t : ThreadId) :
    (p.setLastDynAcc dynAcc).sumsOf m t = p.sumsOf m t := by
  rw [sumsOf, accHisto_setLastDynAcc]
  split <;> rfl

theorem last_setLastDynAcc (p : PredictorNew) (dynAcc : DynAcc) (m : MetaId) (t : ThreadId) :
    ((p.setLastDynAcc dynAcc).accHisto m).lastDynAccTable[t]? =
      if m = dynAcc.metaId ∧ t = dynAcc.thdId then some dynAcc else (p.accHisto m).lastDynAccTable[t]? := by
  rw [accHisto_setLastDynAcc]
  by_cases same : dynAcc.metaId = m
  · by_cases own : dynAcc.thdId = t
    · simp [same, own]
    · simp [same, own, Ne.symm own]
  · simp [same, Ne.symm same]

/-- A new summary, of whose clock the pairs do not know. -/
theorem SumsInv.createAccSum (inv : p.SumsInv atomicInstSet allClocks) (fits : p.Fits dynAcc) :
    (p.createAccSum ptrs dynAcc).SumsInv atomicInstSet (clocksBefore p.accSums.length) := by
  have known : ∀ (i : ℕ) b, (p.createAccSum ptrs dynAcc).accSums[i]? = some b →
      i = p.accSums.length ∧ Fields b dynAcc.access ∧ b.clocks = [dynAcc.vc] ∨
        i ≠ p.accSums.length ∧ p.accSums[i]? = some b := by
    intro i b stored
    rw [getElem?_createAccSum] at stored
    split at stored
    · next last =>
        cases stored
        exact Or.inl ⟨last, ⟨rfl, rfl, rfl, rfl⟩, rfl⟩
    · next other => exact Or.inr ⟨other, stored⟩
  have fresh : p.accSums[p.accSums.length]? = none := List.getElem?_eq_none le_rfl
  constructor
  case table =>
    intro m t i
    rw [sumsOf_createAccSum, getElem?_createAccSum]
    by_cases last : i = p.accSums.length
    · subst last
      have absent : p.accSums.length ∉ p.sumsOf m t := by
        intro listed
        obtain ⟨b, stored, _⟩ := (inv.table m t _).mp listed
        exact nomatch fresh.symm.trans stored
      rw [if_pos rfl]
      simp only [Option.some.injEq, exists_eq_left']
      split
      · next same => simp [same]
      · next other => simp [absent, other]
    · rw [if_neg last, ← inv.table m t i]
      split
      · simp [last]
      · rfl
  case nonempty =>
    intro i b stored
    rcases known i b stored with ⟨_, _, clocks⟩ | ⟨_, stored⟩
    · simp [clocks]
    · exact inv.nonempty i b stored
  case ordered =>
    intro i b stored
    rcases known i b stored with ⟨_, _, clocks⟩ | ⟨_, stored⟩
    · simp [clocks]
    · exact inv.ordered i b stored
  case current =>
    intro i b stored
    rcases known i b stored with ⟨_, fields, clocks⟩ | ⟨_, stored⟩
    · obtain ⟨vc, now, before⟩ := fits.current
      exact ⟨vc, by rw [fields.thdId]; exact now, by simpa [clocks] using before⟩
    · exact inv.current i b stored
  case wf => exact inv.wf
  case known =>
    intro src dst member
    obtain ⟨left, right⟩ := inv.known src dst member
    simp only [PredictorNew.createAccSum, List.length_append]
    omega
  case pairs =>
    intro src dst b c foundB foundC
    change dst ∈ p.pairs.succOf src ↔ _
    rcases known src b foundB with ⟨rfl, _, clocks⟩ | ⟨other, foundB⟩
    · refine iff_of_false (fun member => (inv.known _ _ member).1.false) ?_
      rintro ⟨_, _, _, v, member, _⟩
      simp [clocksBefore, clocks] at member
    · rcases known dst c foundC with ⟨rfl, _, clocks⟩ | ⟨other', foundC⟩
      · refine iff_of_false (fun member => (inv.known _ _ member).2.false) ?_
        rintro ⟨_, _, _, _, _, w, member, _⟩
        simp [clocksBefore, clocks] at member
      · rw [clocksBefore, if_neg other, clocksBefore, if_neg other']
        exact inv.pairs src dst b c foundB foundC

theorem createAccSum_summarised (p : PredictorNew) (pairs : PairIndex) :
    p.Summarised { p.createAccSum ptrs dynAcc with pairs := pairs } dynAcc p.accSums.length := by
  have fresh : p.accSums[p.accSums.length]? = none := List.getElem?_eq_none le_rfl
  constructor
  case sync => rfl
  case last =>
    intro m
    change ((p.createAccSum ptrs dynAcc).accHisto m).lastDynAccTable = _
    rw [accHisto_createAccSum]
    split <;> rfl
  case others =>
    intro i other
    change (p.createAccSum ptrs dynAcc).accSums[i]? = _
    rw [getElem?_createAccSum, if_neg other]
  case fields =>
    intro old stored
    exact nomatch fresh.symm.trans stored
  case summary =>
    refine ⟨_, (getElem?_createAccSum ptrs _).trans (if_pos rfl), ⟨rfl, rfl, rfl, rfl⟩, fun v => ?_⟩
    simp [AccSum.clocks]

end Create

theorem setTinfo_summarised {s : ℕ} {a : AccSum} {tinfo : List (VectorClock × ThdClkInfo)} (pairs : PairIndex)
    (found : p.accSums[s]? = some a) (fields : Fields a dynAcc.access)
    (members : ∀ v, v ∈ tinfo.map Prod.fst ↔ v = dynAcc.vc ∨ v ∈ a.clocks) :
    p.Summarised { p.setTinfo s a tinfo with pairs := pairs } dynAcc s := by
  constructor
  case sync => rfl
  case last => exact fun _ => rfl
  case others =>
    intro i other
    exact (getElem?_setTinfo found i).trans (if_neg (Ne.symm other))
  case fields =>
    intro old stored
    cases found.symm.trans stored
    exact fields
  case summary =>
    refine ⟨_, (getElem?_setTinfo found s).trans (if_pos rfl), ⟨fields.metaId, fields.thdId, fields.type, fields.inst⟩,
      fun v => ?_⟩
    rw [AccSum.clocks, members, found]
    simp only [Option.some.injEq, exists_eq_left']

theorem processAccSumUpdate_spec (ptrs : Pointers) (inv : p.SumsInv atomicInstSet allClocks) (fits : p.Fits dynAcc) :
    ∃ next s, p.processAccSumUpdate ptrs atomicInstSet dynAcc = some (next, s) ∧
      next.SumsInv atomicInstSet allClocks ∧ p.Summarised next dynAcc s := by
  unfold processAccSumUpdate
  cases hit : p.matchAccSum ptrs dynAcc with
  | none =>
    obtain ⟨pairs, searched, inv⟩ := (inv.createAccSum fits).search dynAcc
      ((getElem?_createAccSum ptrs _).trans (if_pos rfl)) rfl rfl
    refine ⟨_, p.accSums.length, ?_, inv, createAccSum_summarised p pairs⟩
    dsimp only
    rw [searched]
    rfl
  | some s =>
    obtain ⟨a, found, fields⟩ := matchAccSum_spec hit
    have occupied : a.tinfo ≠ [] := fun empty => inv.nonempty s a found (by rw [AccSum.clocks, empty, List.map_nil])
    obtain ⟨entry, newest⟩ := Option.isSome_iff_exists.mp (List.getLast?_isSome.mpr occupied)
    have whole := List.dropLast_append_getLast? _ newest
    simp only [found, newest, Option.bind_eq_bind, Option.bind_some]
    split
    · next repeated =>
        -- The clocks stay the same, only the times of the newest one change.
        have same := (VectorClock.equal_iff _ _).mp repeated
        have clocks : (a.tinfo.dropLast ++ [(entry.1, addThdClk entry.2 dynAcc.thdClk)]).map Prod.fst = a.clocks := by
          rw [AccSum.clocks]
          conv_rhs => rw [← whole]
          simp
        refine ⟨_, s, rfl, inv.setTinfo found ?_ ?_ ?_ clocks (fun _ _ _ => rfl),
          setTinfo_summarised p.pairs found fields fun v => ?_⟩
        · rw [clocks]
          exact inv.nonempty s a found
        · rw [clocks]
          exact inv.ordered s a found
        · rw [clocks]
          exact inv.current s a found
        · rw [clocks]
          apply (or_iff_right_of_imp _).symm
          rintro rfl
          rw [same]
          exact List.mem_map_of_mem (List.mem_of_getLast? newest)
    · next changed =>
        have clocks : (a.tinfo ++ [(dynAcc.vc, (⟨dynAcc.thdClk, dynAcc.thdClk⟩ : ThdClkInfo))]).map Prod.fst =
            a.clocks ++ [dynAcc.vc] := by
          simp [AccSum.clocks]
        have earlier := fits.later s a found fields.metaId fields.thdId
        obtain ⟨vc, now, upTo⟩ := fits.current
        have pushed : (p.setTinfo s a (a.tinfo ++ [(dynAcc.vc, ⟨dynAcc.thdClk, dynAcc.thdClk⟩)])).SumsInv atomicInstSet
            (clocksBefore s) := by
          apply inv.setTinfo found
          · simp
          · rw [clocks]
            exact List.pairwise_append.mpr ⟨inv.ordered s a found, List.pairwise_singleton _ _, fun v member w last => by
              rw [List.mem_singleton.mp last]
              exact earlier v member⟩
          · refine ⟨vc, by rw [fields.thdId]; exact now, fun v member => ?_⟩
            rw [clocks] at member
            rcases List.mem_append.mp member with old | last
            · exact VectorClock.happensBefore_trans (earlier v old) upTo
            · rw [List.mem_singleton.mp last]
              exact upTo
          · rw [clocksBefore, if_pos rfl, AccSum.clocks, clocks, List.dropLast_concat]
          · intro i b other
            exact if_neg other
        obtain ⟨pairs, searched, inv⟩ := pushed.search dynAcc ((getElem?_setTinfo found s).trans (if_pos rfl))
          fields.metaId (by rw [AccSum.clocks, clocks, List.getLast?_concat])
        refine ⟨_, s, by rw [searched]; rfl, inv, setTinfo_summarised pairs found fields fun v => ?_⟩
        rw [clocks, List.mem_append, List.mem_singleton, or_comm]

end PredictorNew
end Maple.Idiom
