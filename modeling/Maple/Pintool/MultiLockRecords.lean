import Maple.Pintool.MultiLock

/-! What MultiLock does to the records of a unit: an access that is looked at is
recorded beside the others, as long as there is none of its epoch with a larger
lockset to eliminate. -/
namespace Maple.Pintool
open Race

theorem ElpSet.mem_insert {els : ElpSet} {elp other : Elp} :
    other ∈ els.insert elp ↔ other = elp ∨ other ∈ els := by
  unfold ElpSet.insert
  split
  · next present =>
      simp only [List.any_eq_true, Bool.and_eq_true, decide_eq_true_eq, Lockset.isMatch_iff] at present
      obtain ⟨same, member, epochs, locksets⟩ := present
      have equal : same = elp := Prod.ext epochs locksets
      refine ⟨Or.inr, ?_⟩
      rintro (rfl | member')
      · exact equal ▸ member
      · exact member'
  · exact List.mem_cons

namespace MultiLockMeta

/-- The records of one kind. -/
def els (m : MultiLockMeta) : RaceEventType → ThreadId → ElpSet
  | .read => m.readerEls
  | .write => m.writerEls

def insts (m : MultiLockMeta) : RaceEventType → InstMap
  | .read => m.readerInstTable
  | .write => m.writerInstTable

def elsMap (m : MultiLockMeta) : RaceEventType → OrdMap ThreadId ElpSet
  | .read => m.readerElsMap
  | .write => m.writerElsMap

theorem els_eq (m : MultiLockMeta) (k : RaceEventType) (t : ThreadId) :
    m.els k t = (m.elsMap k)[t]?.getD [] := by
  cases k <;> rfl

/-- The access is taken for redundant. -/
def skips (m : MultiLockMeta) (curr : ThreadId) (currVc : VectorClock) (currLs : Lockset) :
    RaceEventType → Bool
  | .read => (m.readerEls curr).any (MultiLock.skipsRead currVc currLs) ||
      (m.writerEls curr).any (MultiLock.skipsRead currVc currLs)
  | .write => (m.writerEls curr).any (MultiLock.skipsWrite currVc currLs)

end MultiLockMeta

/-- A same-epoch record that covers an access with lockset `currLs`. -/
def covers (currVc : VectorClock) (currLs : Lockset) (elp : Elp) : Bool :=
  elp.1.equal currVc && elp.2.isSubsetOf currLs

/-- An access that is looked at finds no record to eliminate. -/
def MultiLockMeta.Spares (m : MultiLockMeta) (l : RaceEventType) (curr : ThreadId) (currVc : VectorClock)
    (currLs : Lockset) : Prop :=
  m.skips curr currVc currLs l = false →
    (m.readerEls curr).any (MultiLock.eliminates currVc currLs) = false ∧
    (l = .write → (m.writerEls curr).any (MultiLock.eliminates currVc currLs) = false)

instance (m : MultiLockMeta) (l : RaceEventType) (curr : ThreadId) (currVc : VectorClock) (currLs : Lockset) :
    Decidable (m.Spares l curr currVc currLs) := inferInstanceAs (Decidable (_ → _))

/-- A read is skipped only beside a record that covers it, and nothing is eliminated. -/
structure MultiLockMeta.Careful (m : MultiLockMeta) (k : RaceEventType) (curr : ThreadId)
    (currVc : VectorClock) (currLs : Lockset) : Prop where
  covered : m.skips curr currVc currLs k = true → k = .read →
    (m.readerEls curr ++ m.writerEls curr).any (covers currVc currLs) = true
  spares : m.Spares k curr currVc currLs

/-- What a recorded access does to the records. -/
structure Updated (l : RaceEventType) (curr : ThreadId) (currVc : VectorClock) (currLs : Lockset)
    (inst : InstId) (m m' : MultiLockMeta) : Prop where
  racy : m'.racy = m.racy
  others : ∀ k, ∀ t ≠ curr, m'.els k t = m.els k t
  els : ∀ k elp, elp ∈ m'.els k curr ↔
    elp ∈ m.els k curr ∨ k = l ∧ elp = (Epoch.make curr (currVc.getClock curr), currLs)
  insts : ∀ k key, m'.insts k key =
    if k = l ∧ key = instKey (Epoch.make curr (currVc.getClock curr), currLs) then some inst else m.insts k key

section Update
variable {curr : ThreadId} {currVc : VectorClock} {currLs : Lockset} {inst : InstId}
  {m m' : MultiLockMeta} {k l : RaceEventType}

theorem Updated.added (updated : Updated l curr currVc currLs inst m m') :
    (Epoch.make curr (currVc.getClock curr), currLs) ∈ m'.els l curr :=
  (updated.els l _).mpr (Or.inr ⟨rfl, rfl⟩)

theorem Updated.named (updated : Updated l curr currVc currLs inst m m') :
    m'.insts l (instKey (Epoch.make curr (currVc.getClock curr), currLs)) = some inst := by
  rw [updated.insts, if_pos ⟨rfl, rfl⟩]

@[simp] theorem els_read (m : MultiLockMeta) (t : ThreadId) :
    m.els .read t = m.readerElsMap[t]?.getD [] := rfl

@[simp] theorem els_write (m : MultiLockMeta) (t : ThreadId) :
    m.els .write t = m.writerElsMap[t]?.getD [] := rfl

theorem insert_apply (table : InstMap) (elp : Elp) (key : InstKey) :
    table.insert elp inst key = if key = instKey elp then some inst else table key :=
  Function.update_apply ..

/-- The end of `UpdateOnRead` or `UpdateOnWrite`. -/
def recordAs (k : RaceEventType) (curr : ThreadId) (m : MultiLockMeta) (currVc : VectorClock) (currLs : Lockset)
    (inst : InstId) : MultiLockMeta :=
  match k with
  | .read => MultiLock.recordRead curr m currVc currLs inst
  | .write => MultiLock.recordWrite curr m currVc currLs inst

theorem recordAs_spec : Updated l curr currVc currLs inst m (recordAs l curr m currVc currLs inst) := by
  cases l with
  | read =>
    refine ⟨rfl, ?_, ?_, ?_⟩
    · rintro (_ | _) t other
      · simp [recordAs, MultiLock.recordRead, Ne.symm other]
      · rfl
    · rintro (_ | _) elp
      · simp [recordAs, MultiLock.recordRead, ElpSet.mem_insert, MultiLockMeta.readerEls, or_comm]
      · simp [recordAs, MultiLock.recordRead]
    · rintro (_ | _) key
      · simp [recordAs, MultiLock.recordRead, MultiLockMeta.insts, insert_apply]
      · rfl
  | write =>
    refine ⟨rfl, ?_, ?_, ?_⟩
    · rintro (_ | _) t other
      · rfl
      · simp [recordAs, MultiLock.recordWrite, Ne.symm other]
    · rintro (_ | _) elp
      · simp [recordAs, MultiLock.recordWrite]
      · simp [recordAs, MultiLock.recordWrite, ElpSet.mem_insert, MultiLockMeta.writerEls, or_comm]
    · rintro (_ | _) key
      · rfl
      · simp [recordAs, MultiLock.recordWrite, MultiLockMeta.insts, insert_apply]

theorem eliminate_eq {els : ElpSet} (spared : els.any (MultiLock.eliminates currVc currLs) = false) :
    MultiLock.eliminate currVc currLs els = some () := by
  rw [MultiLock.eliminate, spared, if_neg Bool.false_ne_true]

/-- The update of either kind of access. -/
def updateOn (k : RaceEventType) (curr : ThreadId) (m : MultiLockMeta) (currVc : VectorClock) (currLs : Lockset)
    (inst : InstId) : Option (MultiLockMeta × Bool) :=
  match k with
  | .read => MultiLock.updateOnRead curr m currVc currLs inst
  | .write => MultiLock.updateOnWrite curr m currVc currLs inst

theorem updateOn_redundant (looked : m.skips curr currVc currLs k = true) :
    updateOn k curr m currVc currLs inst = some (m, true) := by
  cases k with
  | read =>
    rcases Bool.or_eq_true_iff.mp looked with readers | writers
    · rw [updateOn, MultiLock.updateOnRead, if_pos readers]
    · rw [updateOn, MultiLock.updateOnRead, if_pos writers, ite_self]
  | write =>
    have writers : (m.writerEls curr).any (MultiLock.skipsWrite currVc currLs) = true := looked
    rw [updateOn, MultiLock.updateOnWrite, if_pos writers]

theorem updateOn_recorded (looked : m.skips curr currVc currLs k = false)
    (spares : m.Spares k curr currVc currLs) :
    updateOn k curr m currVc currLs inst = some (recordAs k curr m currVc currLs inst, false) := by
  obtain ⟨readers, writers⟩ := spares looked
  cases k with
  | read =>
    obtain ⟨noReader, noWriter⟩ := Bool.or_eq_false_iff.mp looked
    rw [updateOn, MultiLock.updateOnRead, noReader, noWriter, if_neg Bool.false_ne_true,
      if_neg Bool.false_ne_true, eliminate_eq readers]
    rfl
  | write =>
    have noWriter : (m.writerEls curr).any (MultiLock.skipsWrite currVc currLs) = false := looked
    rw [updateOn, MultiLock.updateOnWrite, noWriter, if_neg Bool.false_ne_true, eliminate_eq readers,
      eliminate_eq (writers rfl)]
    rfl

theorem mem_otherEls (map : OrdMap ThreadId ElpSet) (elp : Elp) :
    elp ∈ MultiLock.otherEls curr map ↔ ∃ t ≠ curr, elp ∈ map[t]?.getD [] := by
  simp only [MultiLock.otherEls, List.mem_flatMap, List.mem_filter, decide_eq_true_eq, Prod.exists]
  constructor
  · rintro ⟨t, els, ⟨member, other⟩, inside⟩
    rw [Std.ExtTreeMap.mem_toList_iff_getElem?_eq_some] at member
    exact ⟨t, other, by rw [member]; exact inside⟩
  · rintro ⟨t, other, inside⟩
    cases found : map[t]? with
    | none => simp [found] at inside
    | some els =>
      rw [found] at inside
      exact ⟨t, els, ⟨Std.ExtTreeMap.mem_toList_iff_getElem?_eq_some.mpr found, other⟩, inside⟩

/-- The check marks the unit exactly when a record is unseen and disjoint. -/
theorem checkEls_spec (curr : ThreadId) (currVc : VectorClock) (currLs : Lockset) (table : InstMap)
    (report : ThreadId → InstId → RaceReport) (els : ElpSet)
    (named : ∀ elp ∈ els, ∃ inst, table (instKey elp) = some inst) :
    ∃ raced calls, MultiLock.checkEls curr currVc currLs table report els = some (raced, calls) ∧
      (raced = true ↔ ∃ elp ∈ els, currVc.getClock elp.1.tid < elp.1.clock ∧
        ∀ a ∈ elp.2, a ∉ currLs) := by
  induction els with
  | nil => exact ⟨false, [], rfl, by simp⟩
  | cons elp rest ih =>
    obtain ⟨⟨inst, found⟩, named⟩ := List.forall_mem_cons.mp named
    obtain ⟨raced, calls, ran, marked⟩ := ih named
    have test : (!elp.1.happensBefore currVc && elp.2.isDisjoint currLs) = true ↔
        currVc.getClock elp.1.tid < elp.1.clock ∧ ∀ a ∈ elp.2, a ∉ currLs := by
      rw [Bool.and_eq_true, Lockset.isDisjoint_iff, Bool.not_eq_true', ← Bool.not_eq_true,
        Epoch.happensBefore_iff, Nat.not_le]
    simp only [List.exists_mem_cons_iff, ← test, MultiLock.checkEls, ran, Option.bind_eq_bind,
      Option.bind_some]
    cases hit : (!elp.1.happensBefore currVc && elp.2.isDisjoint currLs) with
    | false => exact ⟨raced, calls, by simp, by simpa [test] using marked⟩
    | true =>
      by_cases other : curr ≠ elp.1.tid ∧ currVc.getClock elp.1.tid < elp.1.clock
      · exact ⟨true, .createRace (report elp.1.tid inst) :: calls, by simp [other, found], by simp⟩
      · exact ⟨true, calls, by simp only [if_neg other, if_true]; rfl, by simp⟩

end Update
end Maple.Pintool
