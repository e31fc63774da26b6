import Maple.Lib.Matching
import Maple.Systematic.CondInfo

/-! Signals of a condition variable. While identifiers do not wrap around, a waiter that
no broadcast has reached has exactly the signals that were issued since it began to wait
and that nobody has taken; so waiters that began earlier have all that later ones have. -/
namespace Maple.Systematic

theorem firstSignal_eq (set : SignalSet) : firstSignal set = set.min? :=
  Std.ExtTreeSet.min?_eq_head?_toList.symm

theorem mem_insert_signal {set : SignalSet} {new id : BitVec 32} : id ∈ set.insert new ↔ new = id ∨ id ∈ set := by
  simp [Std.ExtTreeSet.mem_insert]

theorem mem_erase_signal {set : SignalSet} {old id : BitVec 32} : id ∈ set.erase old ↔ old ≠ id ∧ id ∈ set := by
  simp [Std.ExtTreeSet.mem_erase]

namespace CondRun
variable {r s : CondRun} {t u : ThreadId} {id : BitVec 32} {w : WaitInfo} {wait : Wait}

def taken (r : CondRun) : List (BitVec 32) := r.log.map Consumption.id

/-- What the code has stored about a wait. -/
structure Describes (r : CondRun) (t : ThreadId) (wait : Wait) (w : WaitInfo) : Prop where
  timed : w.timed = wait.timed
  broadcasted : w.broadcasted = wait.reached
  signals : ∀ id, id ∈ w.signalSet ↔
    wait.reached = false ∧ wait.began < id.toNat ∧ id.toNat ≤ r.issued ∧ id ∉ r.taken
  enabled : r.enable t = !w.asleep

structure Inv (r : CondRun) : Prop where
  waiting : ∀ t, (r.waits t).isSome = true ↔ t ∈ r.info.waitMap
  describes : ∀ t wait w, r.waits t = some wait → r.info.waitMap[t]? = some w → r.Describes t wait w
  began : ∀ t wait, r.waits t = some wait → wait.began ≤ r.issued
  counter : r.info.currSignalId.toNat = r.issued
  once : r.taken.Nodup
  log : ∀ c ∈ r.log, c.wait.began < c.id.toNat ∧ c.id.toNat ≤ r.issued ∧ c.wait.reached = false

theorem Inv.found (inv : r.Inv) (waits : r.waits t = some wait) :
    ∃ w, r.info.waitMap[t]? = some w ∧ r.Describes t wait w := by
  have member := (inv.waiting t).mp (by rw [waits]; rfl)
  have found := Std.ExtTreeMap.getElem?_eq_some_getElem member
  exact ⟨_, found, inv.describes t wait _ waits found⟩

theorem Inv.waits (inv : r.Inv) (found : r.info.waitMap[t]? = some w) :
    ∃ wait, r.waits t = some wait ∧ r.Describes t wait w := by
  have member : t ∈ r.info.waitMap := Std.ExtTreeMap.mem_iff_isSome_getElem?.mpr (by rw [found]; rfl)
  obtain ⟨wait, waits⟩ := Option.isSome_iff_exists.mp ((inv.waiting t).mpr member)
  exact ⟨wait, waits, inv.describes t wait w waits found⟩

theorem inv_initial (initial : ∃ enable, r = { enable }) : r.Inv := by
  obtain ⟨enable, rfl⟩ := initial
  exact ⟨by simp, nofun, nofun, rfl, List.nodup_nil, nofun⟩

/-- The assertion of the waking loops. -/
theorem Inv.wakeUp (inv : r.Inv) : r.info.wakeUp r.enable =
    some fun t => r.enable t || r.info.waitMap[t]?.any WaitInfo.asleep := by
  rw [CondInfo.wakeUp, debugAssert_pos]
  · rfl
  · rintro ⟨t, w⟩ member asleep
    have found := Std.ExtTreeMap.mem_toList_iff_getElem?_eq_some.mp member
    obtain ⟨wait, -, described⟩ := inv.waits found
    rw [described.enabled, asleep]
    rfl

theorem Inv.not_taken (inv : r.Inv) (late : r.issued < id.toNat) : id ∉ r.taken := by
  intro member
  obtain ⟨c, logged, rfl⟩ := List.mem_map.mp member
  exact absurd (inv.log c logged).2.1 (Nat.not_le.mpr late)

/-- A signal is given to the waiters that no broadcast has reached. -/
theorem Describes.signal (described : r.Describes t wait w) (inv : r.Inv) (began : wait.began ≤ r.issued)
    {new : BitVec 32} (next : new.toNat = r.issued + 1) (same : s.taken = r.taken) (issued : s.issued = r.issued + 1)
    (enable : s.enable t = (r.enable t || w.asleep)) :
    s.Describes t wait (if w.broadcasted then w else { w with signalSet := w.signalSet.insert new }) := by
  cases reached : wait.reached with
  | true =>
    have closed := described.broadcasted.trans reached
    rw [if_pos closed]
    refine ⟨described.timed, described.broadcasted, fun id => ?_, ?_⟩
    · rw [described.signals, reached]
      simp
    · rw [enable, described.enabled]
      simp [WaitInfo.asleep, closed]
  | false =>
    have open_ := described.broadcasted.trans reached
    rw [if_neg (by simp [open_])]
    refine ⟨described.timed, described.broadcasted, fun id => ?_, ?_⟩
    · simp only [mem_insert_signal, described.signals, reached, true_and, same, issued]
      constructor
      · rintro (rfl | ⟨after, before, left⟩)
        · exact ⟨by omega, by omega, inv.not_taken (by omega)⟩
        · exact ⟨after, by omega, left⟩
      · rintro ⟨after, before, left⟩
        by_cases last : id.toNat = r.issued + 1
        · exact Or.inl (BitVec.eq_of_toNat_eq (next.trans last.symm))
        · exact Or.inr ⟨after, by omega, left⟩
    · have filled : (w.signalSet.insert new).isEmpty = false :=
        Std.ExtTreeSet.isEmpty_eq_false_iff.mpr Std.ExtTreeSet.insert_ne_empty
      rw [enable, described.enabled, Bool.not_or_self]
      simp [WaitInfo.asleep, filled]

theorem Inv.signal (inv : r.Inv) (meets : r.Meets .signal) :
    ∃ s, r.step .signal = some s ∧ s.Inv ∧ s.log = r.log := by
  have next : (r.info.currSignalId + 1).toNat = r.issued + 1 := by
    rw [BitVec.toNat_add, inv.counter]
    exact Nat.mod_eq_of_lt meets
  let waitMap := r.info.waitMap.map fun _ w =>
    if w.broadcasted then w else { w with signalSet := w.signalSet.insert (r.info.currSignalId + 1) }
  let s : CondRun := { r with
    info := ⟨r.info.currSignalId + 1, waitMap⟩
    enable := fun t => r.enable t || r.info.waitMap[t]?.any WaitInfo.asleep
    issued := r.issued + 1 }
  refine ⟨s, ?_, ⟨fun t => ?_, fun t wait w waits found => ?_, fun t wait waits => ?_, next, inv.once,
    fun c member => ?_⟩, rfl⟩
  · simp only [step, CondInfo.condSignal, inv.wakeUp, Option.bind_eq_bind, Option.bind_some]
    rfl
  · exact (inv.waiting t).trans Std.ExtTreeMap.mem_map.symm
  · obtain ⟨old, before, rfl⟩ := Option.map_eq_some_iff.mp (Std.ExtTreeMap.getElem?_map.symm.trans found)
    have enabled : s.enable t = (r.enable t || old.asleep) := by simp [s, before]
    exact (inv.describes t wait old waits before).signal inv (inv.began t wait waits) next rfl rfl enabled
  · exact Nat.le_succ_of_le (inv.began t wait waits)
  · obtain ⟨first, last, open_⟩ := inv.log c member
    exact ⟨first, Nat.le_succ_of_le last, open_⟩

theorem Inv.broadcast (inv : r.Inv) : ∃ s, r.step .broadcast = some s ∧ s.Inv ∧ s.log = r.log := by
  let waitMap := r.info.waitMap.map fun _ w =>
    if w.broadcasted then w else { w with broadcasted := true, signalSet := ∅ }
  let s : CondRun := { r with
    info := { r.info with waitMap }
    enable := fun t => r.enable t || r.info.waitMap[t]?.any WaitInfo.asleep
    waits := fun t => (r.waits t).map fun wait => { wait with reached := true } }
  refine ⟨s, ?_, ⟨fun t => ?_, fun t wait w waits found => ?_, fun t wait waits => ?_, inv.counter, inv.once,
    inv.log⟩, rfl⟩
  · simp only [step, CondInfo.condBroadcast, inv.wakeUp, Option.bind_eq_bind, Option.bind_some]
    rfl
  · simp only [s, waitMap, Option.isSome_map, Std.ExtTreeMap.mem_map]
    exact inv.waiting t
  · obtain ⟨old, before, rfl⟩ := Option.map_eq_some_iff.mp (Std.ExtTreeMap.getElem?_map.symm.trans found)
    obtain ⟨wait, earlier, rfl⟩ := Option.map_eq_some_iff.mp waits
    have described := inv.describes t wait old earlier before
    have enabled : s.enable t = true := by
      simp [s, before, described.enabled]
    split
    · next closed =>
      have empty : ∀ id, id ∉ old.signalSet := by
        intro id member
        exact absurd (described.broadcasted.symm.trans closed) (by simp [((described.signals id).mp member).1])
      exact ⟨described.timed, closed, fun id => by simp [empty id], by rw [enabled]; simp [WaitInfo.asleep, closed]⟩
    · exact ⟨described.timed, rfl, fun id => by simp, by rw [enabled]; simp [WaitInfo.asleep]⟩
  · obtain ⟨old, earlier, rfl⟩ := Option.map_eq_some_iff.mp waits
    exact inv.began t old earlier

theorem Inv.startWait (inv : r.Inv) {timed : Bool} (allowed : r.Allows (.startWait t timed)) :
    ∃ s, r.step (.startWait t timed) = some s ∧ s.Inv ∧ s.log = r.log := by
  obtain ⟨idle, enabled⟩ := allowed
  have absent : r.info.waitMap[t]? = none := by
    apply Std.ExtTreeMap.getElem?_eq_none
    rw [← inv.waiting, idle]
    exact nofun
  let s : CondRun := { r with
    info := { r.info with waitMap := r.info.waitMap.insert t { timed } }
    enable := if timed then r.enable else Function.update r.enable t false
    waits := Function.update r.waits t (some { timed, began := r.issued }) }
  have others : ∀ u, u ≠ t → s.enable u = r.enable u := by
    intro u other
    simp only [s]
    split
    · rfl
    · exact Function.update_of_ne other _ _
  refine ⟨s, ?_, ⟨fun u => ?_, fun u wait w waits found => ?_, fun u wait waits => ?_, inv.counter, inv.once,
    inv.log⟩, rfl⟩
  · simp only [step, CondInfo.startWait, absent]
    rfl
  · by_cases same : t = u
    · subst same
      simp [s]
    · simp [s, Function.update_of_ne (Ne.symm same), same, inv.waiting u]
  · by_cases same : t = u
    · subst same
      simp only [s, Function.update_self, Option.some.injEq] at waits
      simp only [s, getElem?_insert_thread, if_true, Option.some.injEq] at found
      subst waits found
      refine ⟨rfl, rfl, fun id => ?_, ?_⟩
      · simp [s]
        omega
      · cases timed with
        | true => simpa [s, WaitInfo.asleep] using enabled
        | false => simp [s, WaitInfo.asleep]
    · simp only [s, Function.update_of_ne (Ne.symm same)] at waits
      simp only [s, getElem?_insert_thread, if_neg same] at found
      have described := inv.describes u wait w waits found
      exact ⟨described.timed, described.broadcasted, described.signals, (others u (Ne.symm same)).trans described.enabled⟩
  · by_cases same : t = u
    · subst same
      simp only [s, Function.update_self, Option.some.injEq] at waits
      subst waits
      exact Nat.le_refl _
    · simp only [s, Function.update_of_ne (Ne.symm same)] at waits
      exact inv.began u wait waits

theorem Inv.other (inv : r.Inv) {enabled : Bool} (allowed : r.Allows (.other t enabled)) :
    ∃ s, r.step (.other t enabled) = some s ∧ s.Inv ∧ s.log = r.log := by
  refine ⟨_, rfl, ⟨inv.waiting, fun u wait w waits found => ?_, inv.began, inv.counter, inv.once, inv.log⟩, rfl⟩
  have other : u ≠ t := by
    rintro rfl
    rw [show r.waits u = none from allowed] at waits
    exact nomatch waits
  have described := inv.describes u wait w waits found
  exact ⟨described.timed, described.broadcasted, described.signals,
    (Function.update_of_ne other _ _).trans described.enabled⟩

/-- The other waiters lose the signal that one of them takes. -/
theorem Describes.lose (described : r.Describes u wait w) (apart : u ≠ t) (same : s.taken = r.taken ++ [id])
    (issued : s.issued = r.issued) (enable : s.enable u = (r.enable u && !CondInfo.dozes t id u w)) :
    s.Describes u wait
      (if CondInfo.loses t id u w then { w with signalSet := w.signalSet.erase id } else w) := by
  have signals : ∀ other, wait.reached = false → ((other ∈ w.signalSet ∧ id ≠ other) ↔
      wait.began < other.toNat ∧ other.toNat ≤ s.issued ∧ other ∉ s.taken) := by
    intro other open_
    rw [described.signals, issued, same, List.mem_append, List.mem_singleton, ne_comm]
    simp only [open_, true_and, not_or, and_assoc, ne_eq]
  by_cases loses : CondInfo.loses t id u w = true
  · rw [if_pos loses]
    have inside := loses
    simp only [CondInfo.loses, Bool.and_eq_true, Bool.not_eq_true'] at inside
    have open_ : wait.reached = false := described.broadcasted.symm.trans inside.1.2
    refine ⟨described.timed, described.broadcasted, fun other => ?_, ?_⟩
    · rw [mem_erase_signal, and_comm, signals other open_]
      simp [open_]
    · have awake : w.asleep = false := by
        have filled : w.signalSet.isEmpty = false :=
          Std.ExtTreeSet.isEmpty_eq_false_iff.mpr (Std.ExtTreeSet.ne_empty_of_mem inside.2)
        simp [WaitInfo.asleep, filled]
      rw [enable, described.enabled, awake, CondInfo.dozes, loses, WaitInfo.asleep, inside.1.2]
      simp
  · rw [if_neg loses]
    refine ⟨described.timed, described.broadcasted, fun other => ?_, ?_⟩
    · cases reached : wait.reached with
      | true => simp [described.signals, reached]
      | false =>
        have open_ := described.broadcasted.trans reached
        have absent : id ∉ w.signalSet := fun member =>
          loses (by simpa [CondInfo.loses, apart, open_] using member)
        have kept : other ∈ w.signalSet ↔ other ∈ w.signalSet ∧ id ≠ other :=
          ⟨fun member => ⟨member, by rintro rfl; exact absent member⟩, And.left⟩
        rw [kept, signals other reached]
        simp
    · rw [enable, described.enabled, CondInfo.dozes, Bool.eq_false_iff.mpr loses]
      simp

/-- A waiter leaves, and the others keep what they have. -/
theorem Inv.leave (inv : r.Inv) (t : ThreadId) : ({ r with
    info := r.info.eraseWait t, waits := Function.update r.waits t none } : CondRun).Inv := by
  refine ⟨fun u => ?_, fun u wait w waits found => ?_, fun u wait waits => ?_, inv.counter, inv.once, inv.log⟩
  · by_cases same : t = u
    · subst same
      simp [CondInfo.eraseWait]
    · simp [CondInfo.eraseWait, Function.update_of_ne (Ne.symm same), same, inv.waiting u]
  · by_cases same : t = u
    · subst same
      simp at waits
    · simp only [Function.update_of_ne (Ne.symm same)] at waits
      simp only [CondInfo.eraseWait, Std.ExtTreeMap.getElem?_erase] at found
      have described := inv.describes u wait w waits (by simpa [same] using found)
      exact ⟨described.timed, described.broadcasted, described.signals, described.enabled⟩
  · by_cases same : t = u
    · subst same
      simp at waits
    · simp only [Function.update_of_ne (Ne.symm same)] at waits
      exact inv.began u wait waits

theorem next_eq_some : r.next t = some id ↔
    ∃ w, r.info.waitMap[t]? = some w ∧ w.broadcasted = false ∧ firstSignal w.signalSet = some id := by
  rw [next, Option.bind_eq_bind, Option.bind_eq_some_iff]
  apply exists_congr
  intro w
  cases closed : w.broadcasted with
  | true => simp
  | false => simp

/-- The other waiters after a waiter has taken a signal. -/
theorem Inv.consume (inv : r.Inv) (waits : r.waits t = some wait) (taken : r.next t = some id) :
    ∃ info enable, r.info.consume r.enable t id = some (info, enable) ∧
      ({ r with
        info := info.eraseWait t
        enable
        waits := Function.update r.waits t none
        log := r.log ++ [⟨id, t, wait⟩] } : CondRun).Inv := by
  obtain ⟨w, found, open_, first⟩ := next_eq_some.mp taken
  have member : id ∈ w.signalSet := Std.ExtTreeSet.min?_mem (firstSignal_eq w.signalSet ▸ first)
  obtain ⟨reached, after, before, fresh⟩ := ((inv.describes t wait w waits found).signals id).mp member
  let waitMap := r.info.waitMap.map fun u w =>
    if CondInfo.loses t id u w then { w with signalSet := w.signalSet.erase id } else w
  refine ⟨{ r.info with waitMap }, fun u => r.enable u && !r.info.waitMap[u]?.any (CondInfo.dozes t id u), ?_, ?_⟩
  · rw [CondInfo.consume, debugAssert_pos]
    · rfl
    · rintro ⟨u, other⟩ listed dozes
      obtain ⟨wait', -, described⟩ := inv.waits (Std.ExtTreeMap.mem_toList_iff_getElem?_eq_some.mp listed)
      simp only [CondInfo.dozes, CondInfo.loses, Bool.and_eq_true] at dozes
      have filled : other.signalSet.isEmpty = false :=
        Std.ExtTreeSet.isEmpty_eq_false_iff.mpr (Std.ExtTreeSet.ne_empty_of_mem dozes.1.1.2)
      rw [described.enabled, WaitInfo.asleep, filled]
      simp
  · have others : ∀ u, u ≠ t → (Function.update r.waits t none) u = r.waits u :=
      fun u apart => Function.update_of_ne apart _ _
    refine ⟨fun u => ?_, fun u wait' w' waits' found' => ?_, fun u wait' waits' => ?_, inv.counter, ?_, ?_⟩
    · by_cases same : t = u
      · subst same
        simp [CondInfo.eraseWait]
      · simp [CondInfo.eraseWait, waitMap, others u (Ne.symm same), same, inv.waiting u]
    · by_cases same : t = u
      · subst same
        simp at waits'
      · simp only [others u (Ne.symm same)] at waits'
        simp only [CondInfo.eraseWait, Std.ExtTreeMap.getElem?_erase, compare_eq_iff_eq, if_neg same] at found'
        obtain ⟨old, earlier, rfl⟩ := Option.map_eq_some_iff.mp (Std.ExtTreeMap.getElem?_map.symm.trans found')
        apply (inv.describes u wait' old waits' earlier).lose (Ne.symm same)
        · simp [CondRun.taken]
        · rfl
        · simp [earlier]
    · by_cases same : t = u
      · subst same
        simp at waits'
      · simp only [others u (Ne.symm same)] at waits'
        exact inv.began u wait' waits'
    · simp only [CondRun.taken, List.map_append, List.map_cons, List.map_nil]
      exact List.nodup_append.mpr ⟨inv.once, List.nodup_singleton id, fun a inside b last => by
        cases List.mem_singleton.mp last
        rintro rfl
        exact fresh inside⟩
    · intro c logged
      rcases List.mem_append.mp logged with old | new
      · exact inv.log c old
      · cases List.mem_singleton.mp new
        exact ⟨after, before, reached⟩

/-- Both kinds of wait do the same once their schedule points are passed. -/
theorem Inv.endWait (inv : r.Inv) (allowed : r.Allows (.endWait t)) :
    ∃ wait s, r.waits t = some wait ∧ r.step (.endWait t) = some s ∧ s.Inv ∧ s.issued = r.issued ∧
      s.waits = Function.update r.waits t none ∧ s.log = r.log ++ ((r.next t).map fun id => ⟨id, t, wait⟩).toList := by
  obtain ⟨waiting, awake⟩ := allowed
  obtain ⟨wait, waits⟩ := Option.isSome_iff_exists.mp waiting
  obtain ⟨w, found, described⟩ := inv.found waits
  cases taken : r.next t with
  | some id =>
    obtain ⟨w', found', open_, first⟩ := next_eq_some.mp taken
    cases found.symm.trans found'
    obtain ⟨info, enable, consumed, kept⟩ := inv.consume waits taken
    refine ⟨wait, _, waits, ?_, kept, rfl, rfl, rfl⟩
    cases timed : wait.timed with
    | true =>
      simp [step, waits, timed, CondInfo.condTimedwait, found, open_, first, consumed, taken]
    | false => simp [step, waits, timed, CondInfo.condWait, found, open_, first, consumed, taken]
  | none =>
    refine ⟨wait, _, waits, ?_, inv.leave t, rfl, rfl, by simp⟩
    cases closed : w.broadcasted with
    | true =>
      cases timed : wait.timed with
      | true => simp [step, waits, timed, CondInfo.condTimedwait, found, closed, taken]
      | false => simp [step, waits, timed, CondInfo.condWait, found, closed, taken]
    | false =>
      have empty : firstSignal w.signalSet = none := by
        cases first : firstSignal w.signalSet with
        | none => rfl
        | some id => simp [next_eq_some.mpr ⟨w, found, closed, first⟩] at taken
      have none : w.signalSet.isEmpty = true :=
        Std.ExtTreeSet.isEmpty_iff.mpr (Std.ExtTreeSet.min?_eq_none_iff.mp (firstSignal_eq w.signalSet ▸ empty))
      have timed : wait.timed = true := by
        rw [described.enabled, WaitInfo.asleep, closed, none] at awake
        simpa [described.timed] using awake
      simp [step, waits, timed, CondInfo.condTimedwait, found, closed, empty, taken]

def signals (r : CondRun) (t : ThreadId) : SignalSet := (r.info.waitMap[t]?.map WaitInfo.signalSet).getD ∅

/-- The numbers of the signals that are pending for a waiter. -/
def pending (r : CondRun) (t : ThreadId) : Finset ℕ := ((r.signals t).toList.map BitVec.toNat).toFinset

/-- The current waiters that no broadcast has reached. -/
def unreached (r : CondRun) : Finset ThreadId :=
  r.info.waitMap.keys.toFinset.filter fun t => (r.waits t).any (fun wait => !wait.reached) = true

theorem toNat_mem_pending : id.toNat ∈ r.pending t ↔ id ∈ r.signals t := by
  simp only [pending, List.mem_toFinset, List.mem_map, Std.ExtTreeSet.mem_toList]
  constructor
  · rintro ⟨other, member, same⟩
    rwa [← BitVec.eq_of_toNat_eq same]
  · exact fun member => ⟨id, member, rfl⟩

theorem exists_of_mem_pending {n : ℕ} (member : n ∈ r.pending t) : ∃ id ∈ r.signals t, id.toNat = n := by
  simpa only [pending, List.mem_toFinset, List.mem_map, Std.ExtTreeSet.mem_toList] using member

theorem Inv.mem_signals (inv : r.Inv) (waits : r.waits t = some wait) (open_ : wait.reached = false) :
    id ∈ r.signals t ↔ wait.began < id.toNat ∧ id.toNat ≤ r.issued ∧ id ∉ r.taken := by
  obtain ⟨w, found, described⟩ := inv.found waits
  have stored := described.signals id
  simp only [open_, true_and] at stored
  rw [← stored, signals, found]
  rfl

theorem Inv.mem_unreached (inv : r.Inv) : t ∈ r.unreached ↔ ∃ wait, r.waits t = some wait ∧ wait.reached = false := by
  simp only [unreached, Finset.mem_filter, List.mem_toFinset, Std.ExtTreeMap.mem_keys, ← inv.waiting,
    Option.any_eq_true, Bool.not_eq_true']
  constructor
  · exact And.right
  · rintro ⟨wait, waits, open_⟩
    exact ⟨by rw [waits]; rfl, wait, waits, open_⟩

/-- Who has a signal pending, has all later ones that anybody has. -/
theorem Inv.suffix (inv : r.Inv) : ∀ u ∈ r.unreached, ∀ v ∈ r.unreached, ∀ x ∈ r.pending u,
    ∀ y ∈ r.pending v, x ≤ y → y ∈ r.pending u := by
  intro u first v second x mine y other below
  obtain ⟨wait, waits, open_⟩ := inv.mem_unreached.mp first
  obtain ⟨wait', waits', open_'⟩ := inv.mem_unreached.mp second
  obtain ⟨early, has, rfl⟩ := exists_of_mem_pending mine
  obtain ⟨late, has', rfl⟩ := exists_of_mem_pending other
  obtain ⟨after, -, -⟩ := (inv.mem_signals waits open_).mp has
  obtain ⟨-, before, left⟩ := (inv.mem_signals waits' open_').mp has'
  rw [toNat_mem_pending, inv.mem_signals waits open_]
  exact ⟨Nat.lt_of_lt_of_le after below, before, left⟩

theorem firstSignal_le {set : SignalSet} {other : BitVec 32} (first : firstSignal set = some id)
    (member : other ∈ set) : id.toNat ≤ other.toNat := by
  rw [firstSignal_eq] at first
  have ordered := (Std.ExtTreeSet.min?_eq_some_iff_mem_and_forall.mp first).2 other member
  simp only [compare, compareOfLessAndEq] at ordered
  split at ordered
  · next less => exact Nat.le_of_lt (BitVec.lt_def.mp less)
  · split at ordered
    · next same => rw [same]
    · exact nomatch ordered

/-- A waiter that takes a signal costs the others nothing. -/
theorem Inv.size_take (inv : r.Inv) (kept : s.Inv) (taken : r.next t = some id) (issued : s.issued = r.issued)
    (waits : s.waits = Function.update r.waits t none) (log : s.taken = r.taken ++ [id]) :
    Matching.size s.unreached s.pending + 1 = Matching.size r.unreached r.pending := by
  obtain ⟨w, found, closed, first⟩ := next_eq_some.mp taken
  obtain ⟨wait, before, described⟩ := inv.waits found
  have open_ : wait.reached = false := described.broadcasted.symm.trans closed
  have here : t ∈ r.unreached := inv.mem_unreached.mpr ⟨wait, before, open_⟩
  have own : r.signals t = w.signalSet := by rw [signals, found]; rfl
  have left : s.unreached = r.unreached.erase t := by
    ext u
    rw [Finset.mem_erase, kept.mem_unreached, inv.mem_unreached, waits]
    by_cases same : u = t
    · subst same
      simp
    · simp [same]
  rw [left]
  apply Matching.size_claim here (x := id.toNat)
  · rw [toNat_mem_pending, own]
    exact Std.ExtTreeSet.min?_mem (firstSignal_eq w.signalSet ▸ first)
  · intro u member apart
    obtain ⟨wait', waits', open_'⟩ := inv.mem_unreached.mp member
    have after : s.waits u = some wait' := by rw [waits, Function.update_of_ne apart, waits']
    ext n
    rw [Finset.mem_erase]
    constructor
    · intro has
      obtain ⟨other, held, rfl⟩ := exists_of_mem_pending has
      rw [kept.mem_signals after open_', issued, log, List.mem_append, List.mem_singleton, not_or] at held
      refine ⟨fun same => held.2.2.2 (BitVec.eq_of_toNat_eq same), ?_⟩
      rw [toNat_mem_pending, inv.mem_signals waits' open_']
      exact ⟨held.1, held.2.1, held.2.2.1⟩
    · rintro ⟨different, has⟩
      obtain ⟨other, held, rfl⟩ := exists_of_mem_pending has
      rw [inv.mem_signals waits' open_'] at held
      rw [toNat_mem_pending, kept.mem_signals after open_', issued, log, List.mem_append, List.mem_singleton, not_or]
      exact ⟨held.1, held.2.1, held.2.2, fun same => different (congrArg _ same)⟩
  · exact inv.suffix
  · intro y has
    obtain ⟨other, held, rfl⟩ := exists_of_mem_pending has
    rw [own] at held
    exact firstSignal_le first held

/-- The calls that the controller lets happen, with fewer than 2^32 signals. -/
def Short (r : CondRun) (e : CondEvent) : Prop := r.Allows e ∧ r.Meets e

instance (r : CondRun) (e : CondEvent) : Decidable (r.Short e) := inferInstanceAs (Decidable (_ ∧ _))

theorem Inv.step (inv : r.Inv) {e : CondEvent} (short : r.Short e) :
    ∃ s, r.step e = some s ∧ s.Inv ∧ (s.log = r.log ∨
      Matching.size s.unreached s.pending + 1 = Matching.size r.unreached r.pending) := by
  obtain ⟨allowed, meets⟩ := short
  cases e with
  | signal =>
    obtain ⟨s, stepped, kept, log⟩ := inv.signal meets
    exact ⟨s, stepped, kept, Or.inl log⟩
  | broadcast =>
    obtain ⟨s, stepped, kept, log⟩ := inv.broadcast
    exact ⟨s, stepped, kept, Or.inl log⟩
  | startWait t timed =>
    obtain ⟨s, stepped, kept, log⟩ := inv.startWait allowed
    exact ⟨s, stepped, kept, Or.inl log⟩
  | endWait t =>
    obtain ⟨wait, s, -, stepped, kept, issued, waits, log⟩ := inv.endWait allowed
    refine ⟨s, stepped, kept, ?_⟩
    cases taken : r.next t with
    | none => exact Or.inl (by simpa [taken] using log)
    | some id =>
      refine Or.inr (inv.size_take kept taken issued waits ?_)
      rw [CondRun.taken, log, taken]
      simp [CondRun.taken]
  | other t enabled =>
    obtain ⟨s, stepped, kept, log⟩ := inv.other allowed
    exact ⟨s, stepped, kept, Or.inl log⟩

theorem Reachable.inv (reached : Reachable Short r) : r.Inv := by
  apply reached.invariant Inv
  · exact fun r => inv_initial
  · intro r e s inv short stepped
    obtain ⟨s', stepped', kept, -⟩ := inv.step short
    cases stepped.symm.trans stepped'
    exact kept

end CondRun

/-- As long as identifiers do not wrap around, no signal is taken twice, each is taken
during a wait that began before it and that no broadcast has reached, it is pending for
all such waits until then, and a waiter that takes one strands no other. -/
theorem signals_matched {r : CondRun} (reached : r.Reachable CondRun.Short) :
    r.info.currSignalId.toNat = r.issued ∧ r.taken.Nodup ∧
    (∀ c ∈ r.log, c.wait.began < c.id.toNat ∧ c.wait.reached = false) ∧
    (∀ t wait, r.waits t = some wait → wait.reached = false → ∀ id, id ∈ r.signals t ↔
      wait.began < id.toNat ∧ id.toNat ≤ r.issued ∧ id ∉ r.taken) ∧
    ∀ e, r.Short e → ∃ s, r.step e = some s ∧ (s.log ≠ r.log →
      Matching.size s.unreached s.pending + 1 = Matching.size r.unreached r.pending) := by
  have inv := CondRun.Reachable.inv reached
  refine ⟨inv.counter, inv.once, fun c logged => ⟨(inv.log c logged).1, (inv.log c logged).2.2⟩,
    fun t wait waits open_ id => inv.mem_signals waits open_, fun e short => ?_⟩
  obtain ⟨s, stepped, -, costs⟩ := inv.step short
  exact ⟨s, stepped, costs.resolve_left⟩

/-- A waiter that began first takes the only signal. -/
theorem signals_matched_pair : ∃ r : CondRun, r.Reachable CondRun.Short ∧ r.log.isEmpty = false ∧
    r.info.currSignalId.toNat = r.issued ∧ r.taken.Nodup := by
  have t : (Runs.follow CondRun.Short CondRun.step {} [.startWait 1 false, .startWait 2 true, .signal,
      .endWait 1]).any (fun r => !r.log.isEmpty) = true := by
    decide +kernel
  obtain ⟨r, reached, logged⟩ : ∃ r : CondRun, r.Reachable CondRun.Short ∧ _ = true :=
    Runs.Reach.of_follow ⟨_, rfl⟩ _ t
  have matched := signals_matched reached
  exact ⟨r, reached, by simpa using logged, matched.1, matched.2.1⟩

namespace CondRun

/-- After signals that nobody waited for. -/
def quiet (n : ℕ) : CondRun := { info := { currSignalId := BitVec.ofNat 32 n }, issued := n }

theorem quiet_reachable (n : ℕ) : (quiet n).Reachable Allows := by
  induction n with
  | zero => exact .start ⟨fun _ => true, rfl⟩
  | succ n ih =>
    have stepped : (quiet n).step .signal = some (quiet (n + 1)) := by
      have next : BitVec.ofNat 32 n + 1 = BitVec.ofNat 32 (n + 1) := (BitVec.ofNat_add n 1).symm
      simp [step, quiet, CondInfo.condSignal, CondInfo.wakeUp, debugAssert]
      exact next
    exact .next .signal ih trivial stepped

/-- The first waiter has an old signal pending that its new ones come before. -/
theorem wraps_around : ∃ r s : CondRun, r.Reachable Allows ∧ r.Allows (.endWait 1) ∧ r.step (.endWait 1) = some s ∧
    s.log ≠ r.log ∧ Matching.size r.unreached r.pending ≥ 2 ∧ Matching.size s.unreached s.pending = 0 := by
  have t : (Runs.follow Allows step (quiet (2 ^ 32 - 2)) [.startWait 1 false, .signal, .startWait 2 false,
      .signal]).any (fun r => r.Allows (.endWait 1) && r.log.isEmpty &&
        1 ∈ r.unreached && 2 ∈ r.unreached && 4294967295 ∈ r.pending 1 && 0 ∈ r.pending 2 &&
        (r.step (.endWait 1)).any fun s => !s.log.isEmpty && s.unreached = {2} && s.pending 2 = ∅) = true := by
    decide +kernel
  obtain ⟨r, followed, passed⟩ := (Option.any_eq_true _ _).mp t
  simp only [Bool.and_eq_true, decide_eq_true_eq] at passed
  obtain ⟨⟨⟨⟨⟨⟨allowed, fresh⟩, first⟩, second⟩, old⟩, new⟩, rest⟩ := passed
  obtain ⟨s, stepped, passed⟩ := (Option.any_eq_true _ _).mp rest
  simp only [Bool.and_eq_true, decide_eq_true_eq] at passed
  obtain ⟨⟨logged, alone⟩, nothing⟩ := passed
  refine ⟨r, s, (quiet_reachable _).follow followed, allowed, stepped, ?_, ?_, ?_⟩
  · intro same
    rw [same, fresh] at logged
    exact nomatch logged
  · have both : ({1, 2} : Finset ThreadId).card ≤ Matching.size r.unreached r.pending := by
      apply Matching.le_size (by simp [Finset.insert_subset_iff, first, second])
      refine ⟨fun u => if u = 1 then 4294967295 else 0, by simp [Set.InjOn], by simp [old, new]⟩
    simpa using both
  · apply Nat.le_zero.mp
    apply Matching.size_le
    rintro M within ⟨f, -, owns⟩
    rw [Nat.le_zero, Finset.card_eq_zero, Finset.eq_empty_iff_forall_notMem]
    intro u member
    rw [alone] at within
    cases Finset.mem_singleton.mp (within member)
    have own := owns 2 member
    rw [nothing] at own
    exact absurd own (Finset.notMem_empty _)

end CondRun

/-- After 2^32 signals, a waiter that takes the smallest identifier strands another one. -/
theorem signals_stranded : ∃ r s : CondRun, r.Reachable CondRun.Allows ∧ r.Allows (.endWait 1) ∧
    r.step (.endWait 1) = some s ∧ s.log ≠ r.log ∧
    Matching.size s.unreached s.pending + 1 ≠ Matching.size r.unreached r.pending := by
  obtain ⟨r, s, reached, allowed, stepped, logged, two, zero⟩ := CondRun.wraps_around
  exact ⟨r, s, reached, allowed, stepped, logged, by omega⟩

end Maple.Systematic
