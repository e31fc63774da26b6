import Maple.Lib.Runs
import Maple.Race.Detector

/-! Clocks handed over by a condition variable. `ProcessNotify` assigns its clock
to the pending signal of every waiter, so an earlier notification survives only
where the later one has seen it. -/
namespace Maple.Race

/-- A detector state with history: who waits, and the clock (before its
increment) of every notification since the thread began to wait. -/
structure CondRun (G : Type) where
  base : DetectorBase G
  waiting : ThreadId → Bool := fun _ => false
  notified : ThreadId → List VectorClock := fun _ => []

/-- Calls on one condition variable; `other` stands for any other hooks in between. -/
inductive CondCall (G : Type) where
  | preWait (thdId : ThreadId)
  | notify (thdId : ThreadId)
  | postWait (thdId : ThreadId)
  | other (base : DetectorBase G)

namespace CondRun
variable {G : Type}

def condMeta (r : CondRun G) (addr : Address) : CondMeta := r.base.condMetaTable[addr]?.getD {}

/-- The clock that `ProcessNotify` gives to the waiters. -/
def notifyClock (r : CondRun G) (addr : Address) (currVc : VectorClock) : VectorClock :=
  (r.condMeta addr).waitTable.toList.foldl (fun vc entry => vc.join entry.2) currVc

def Allows (addr : Address) (r : CondRun G) : CondCall G → Prop
  | .preWait t => r.waiting t = false ∧ ∃ vc, r.base.currVcMap[t]? = some vc
  | .notify t => ∃ vc, r.base.currVcMap[t]? = some vc
  | .postWait t => r.waiting t = true ∧ ∃ vc, r.base.currVcMap[t]? = some vc
  | .other b => b.condMetaTable[addr]? = r.base.condMetaTable[addr]?

def step (addr : Address) (r : CondRun G) : CondCall G → Option (CondRun G)
  | .preWait t => do
    let base ← r.base.processPreWait t addr
    return {
      base := base
      waiting := Function.update r.waiting t true
      notified := Function.update r.notified t [] }
  | .notify t => do
    let vc ← r.base.currVcMap[t]?
    let base ← r.base.processNotify t addr
    return { r with
      base := base
      notified := fun u => if r.waiting u then r.notifyClock addr vc :: r.notified u else r.notified u }
  | .postWait t => do
    let base ← r.base.processPostWait t addr
    return { r with base := base, waiting := Function.update r.waiting t false }
  | .other b => some { r with base := b }

def Initial (addr : Address) (r : CondRun G) : Prop :=
  ∃ base : DetectorBase G, r = { base := base } ∧ base.condMetaTable[addr]? = none

/-- A notification that overwrites a pending signal has seen it. -/
def Covers (addr : Address) (r : CondRun G) : CondCall G → Prop
  | .notify t => ∀ (u : ThreadId) (pending vc : VectorClock),
      (r.condMeta addr).signalTable[u]? = some pending → r.base.currVcMap[t]? = some vc →
      ∀ x, pending.getClock x ≤ (r.notifyClock addr vc).getClock x
  | _ => True

/-- Signals are pending for waiters only; `covered` adds that the pending signal
dominates every notification since. -/
structure Inv (addr : Address) (r : CondRun G) : Prop where
  waiters : ∀ t, r.waiting t = true ↔ t ∈ (r.condMeta addr).waitTable
  signals : ∀ {t : ThreadId} {vc}, (r.condMeta addr).signalTable[t]? = some vc → r.waiting t = true

structure Covered (addr : Address) (r : CondRun G) : Prop extends Inv addr r where
  covered : ∀ {t : ThreadId} {vc}, r.waiting t = true → vc ∈ r.notified t →
    ∃ pending, (r.condMeta addr).signalTable[t]? = some pending ∧ ∀ x, vc.getClock x ≤ pending.getClock x

theorem getElem?_foldl_insert {V : Type} (entries : List (ThreadId × VectorClock))
    (table : OrdMap ThreadId V) (v : V) (t : ThreadId) :
    (entries.foldl (fun table entry => table.insert entry.1 v) table)[t]? =
      if ∃ e ∈ entries, e.1 = t then some v else table[t]? := by
  induction entries generalizing table with
  | nil => simp
  | cons entry rest ih =>
    rw [List.foldl_cons, ih, getElem?_insert_thread]
    by_cases later : ∃ e ∈ rest, e.1 = t
    · simp [later]
    · by_cases here : entry.1 = t <;> simp [later, here]

variable {addr : Address} {r : CondRun G}

/-- After `ProcessNotify` every waiter's pending signal is the notifier's clock. -/
theorem notify_spec (addr : Address) {t : ThreadId} {vc : VectorClock} (found : r.base.currVcMap[t]? = some vc) :
    ∃ r', r.step addr (.notify t) = some r' ∧ r'.waiting = r.waiting ∧
      (∀ u, r'.notified u =
        if r.waiting u then r.notifyClock addr vc :: r.notified u else r.notified u) ∧
      (r'.condMeta addr).waitTable = (r.condMeta addr).waitTable ∧
      ∀ u, (r'.condMeta addr).signalTable[u]? =
        if u ∈ (r.condMeta addr).waitTable then some (r.notifyClock addr vc)
        else (r.condMeta addr).signalTable[u]? := by
  let joined := r.notifyClock addr vc
  let signals := (r.condMeta addr).waitTable.toList.foldl
    (fun table entry => table.insert entry.1 joined) (r.condMeta addr).signalTable
  let base : DetectorBase G := { r.base.setVc t (joined.increment t) with
    condMetaTable := r.base.condMetaTable.insert addr { r.condMeta addr with signalTable := signals } }
  have result : r.base.processNotify t addr = some base := by
    simp [DetectorBase.processNotify, found, base, signals, joined, notifyClock, condMeta]
  refine ⟨{ r with
      base := base
      notified := fun u => if r.waiting u then joined :: r.notified u else r.notified u },
    by simp [step, found, result, joined], rfl, fun _ => rfl, by simp [condMeta, base], ?_⟩
  intro u
  have members : (∃ e ∈ (r.condMeta addr).waitTable.toList, e.1 = u) ↔
      u ∈ (r.condMeta addr).waitTable := by
    rw [← Std.ExtTreeMap.mem_keys, ← Std.ExtTreeMap.map_fst_toList_eq_keys, List.mem_map]
  have assigned := getElem?_foldl_insert (r.condMeta addr).waitTable.toList
    (r.condMeta addr).signalTable joined u
  simp only [members] at assigned
  rw [← assigned]
  simp [condMeta, base, signals]

theorem preWait_spec (addr : Address) {t : ThreadId} {vc : VectorClock} (found : r.base.currVcMap[t]? = some vc) :
    ∃ r', r.step addr (.preWait t) = some r' ∧ r'.waiting = Function.update r.waiting t true ∧
      r'.notified = Function.update r.notified t [] ∧
      (r'.condMeta addr).waitTable = (r.condMeta addr).waitTable.insert t vc ∧
      (r'.condMeta addr).signalTable = (r.condMeta addr).signalTable := by
  let base : DetectorBase G := { r.base.setVc t (vc.increment t) with
    condMetaTable := r.base.condMetaTable.insert addr
      { r.condMeta addr with waitTable := (r.condMeta addr).waitTable.insert t vc } }
  have result : r.base.processPreWait t addr = some base := by
    simp [DetectorBase.processPreWait, found, base, condMeta]
  exact ⟨{ base := base, waiting := Function.update r.waiting t true, notified := Function.update r.notified t [] },
    by simp [step, result], rfl, rfl, by simp [condMeta, base], by simp [condMeta, base]⟩

/-- `ProcessPostWait` joins the pending signal, if there is one, and drops both entries. -/
theorem postWait_spec {t : ThreadId} {vc : VectorClock} (found : r.base.currVcMap[t]? = some vc)
    (inside : t ∈ (r.condMeta addr).waitTable) :
    ∃ (r' : CondRun G) (now : VectorClock), r.step addr (.postWait t) = some r' ∧
      r'.waiting = Function.update r.waiting t false ∧ r'.notified = r.notified ∧
      (r'.condMeta addr).waitTable = (r.condMeta addr).waitTable.erase t ∧
      (∀ u : ThreadId, (r'.condMeta addr).signalTable[u]? =
        if t = u then none else (r.condMeta addr).signalTable[u]?) ∧
      r'.base.currVcMap[t]? = some now ∧
      ∀ pending : VectorClock, (r.condMeta addr).signalTable[t]? = some pending →
        ∀ x, pending.getClock x ≤ now.getClock x := by
  have member : t ∈ (r.base.condMetaTable[addr]?.getD {}).waitTable := inside
  let waiting := (r.condMeta addr).waitTable.erase t
  cases pending : (r.condMeta addr).signalTable[t]? with
  | none =>
    let base : DetectorBase G := { r.base with
      condMetaTable := r.base.condMetaTable.insert addr { r.condMeta addr with waitTable := waiting } }
    have result : r.base.processPostWait t addr = some base := by
      simp only [condMeta] at pending
      simp [DetectorBase.processPostWait, found, debugAssert_pos member, pending, base, condMeta, waiting]
    refine ⟨{ r with base := base, waiting := Function.update r.waiting t false }, vc,
      by simp [step, result], rfl, rfl, by simp [condMeta, base, waiting], fun u => ?_, found,
      fun _ same => by cases same⟩
    split
    · next same =>
        subst same
        simpa [condMeta, base] using pending
    · simp [condMeta, base]
  | some signal =>
    let base : DetectorBase G := { r.base.setVc t (vc.join signal) with
      condMetaTable := r.base.condMetaTable.insert addr
        { waitTable := waiting, signalTable := (r.condMeta addr).signalTable.erase t } }
    have result : r.base.processPostWait t addr = some base := by
      simp only [condMeta] at pending
      simp [DetectorBase.processPostWait, found, debugAssert_pos member, pending, base, condMeta, waiting]
    refine ⟨{ r with base := base, waiting := Function.update r.waiting t false }, vc.join signal,
      by simp [step, result], rfl, rfl, by simp [condMeta, base, waiting], fun u => ?_,
      by simp [base, DetectorBase.setVc], ?_⟩
    · simp [condMeta, base, Std.ExtTreeMap.getElem?_erase]
    · rintro _ same x
      cases same
      rw [VectorClock.getClock_join]
      exact le_max_right _ _

theorem Inv.step (inv : Inv addr r) {call : CondCall G} (allowed : r.Allows addr call) :
    ∃ r', r.step addr call = some r' ∧ Inv addr r' := by
  cases call with
  | preWait t =>
    obtain ⟨_, vc, found⟩ := allowed
    obtain ⟨r', stepped, waiting, _, waits, signals⟩ := preWait_spec addr found
    refine ⟨r', stepped, fun u => ?_, fun {u vc'} pending => ?_⟩
    · rw [waiting, waits, Std.ExtTreeMap.mem_insert, Function.update_apply, Nat.compare_eq_eq]
      by_cases same : u = t
      · simp [same]
      · rw [if_neg same, or_iff_right (Ne.symm same)]
        exact inv.waiters u
    · rw [signals] at pending
      rw [waiting, Function.update_apply]
      split
      · rfl
      · exact inv.signals pending
  | notify t =>
    obtain ⟨vc, found⟩ := allowed
    obtain ⟨r', stepped, waiting, _, waits, signals⟩ := notify_spec addr found
    refine ⟨r', stepped, fun u => by rw [waiting, waits]; exact inv.waiters u,
      fun {u vc'} pending => ?_⟩
    rw [signals] at pending
    rw [waiting]
    split at pending
    · next waits => exact (inv.waiters u).mpr waits
    · exact inv.signals pending
  | postWait t =>
    obtain ⟨inside, vc, found⟩ := allowed
    obtain ⟨r', now, stepped, waiting, _, waits, signals, _⟩ :=
      postWait_spec found ((inv.waiters t).mp inside)
    refine ⟨r', stepped, fun u => ?_, fun {u vc'} pending => ?_⟩
    · rw [waiting, waits, Function.update_apply, Std.ExtTreeMap.mem_erase, ne_eq, Nat.compare_eq_eq]
      by_cases same : u = t
      · simp [same]
      · rw [if_neg same, and_iff_right (Ne.symm same)]
        exact inv.waiters u
    · rw [signals] at pending
      rw [waiting, Function.update_apply]
      split at pending
      · exact nomatch pending
      · next other =>
          rw [if_neg (Ne.symm other)]
          exact inv.signals pending
  | other b =>
    have same : ({ r with base := b } : CondRun G).condMeta addr = r.condMeta addr := by
      simp only [condMeta, show b.condMetaTable[addr]? = r.base.condMetaTable[addr]? from allowed]
    exact ⟨_, rfl, fun u => by rw [same]; exact inv.waiters u,
      fun pending => inv.signals (same ▸ pending)⟩

/-- A pending signal keeps dominating as long as overwriting ones have seen it. -/
theorem Covered.step (inv : Covered addr r) {call : CondCall G} (allowed : r.Allows addr call)
    (covers : r.Covers addr call) {r' : CondRun G} (result : r.step addr call = some r') :
    Covered addr r' := by
  obtain ⟨next, stepped, kept⟩ := inv.toInv.step allowed
  cases result.symm.trans stepped
  refine ⟨kept, ?_⟩
  intro u w inside heard
  cases call with
  | preWait t =>
    obtain ⟨_, vc, found⟩ := allowed
    obtain ⟨r', stepped', waiting, notified, _, signals⟩ := preWait_spec addr found
    cases stepped.symm.trans stepped'
    rw [notified, Function.update_apply] at heard
    rw [waiting, Function.update_apply] at inside
    split at heard
    · exact nomatch heard
    · next other =>
        rw [if_neg other] at inside
        rw [signals]
        exact inv.covered inside heard
  | notify t =>
    obtain ⟨vc, found⟩ := allowed
    obtain ⟨r', stepped', waiting, notified, _, signals⟩ := notify_spec addr found
    cases stepped.symm.trans stepped'
    rw [waiting] at inside
    have waits := (inv.waiters u).mp inside
    rw [notified, if_pos inside, List.mem_cons] at heard
    refine ⟨r.notifyClock addr vc, by rw [signals, if_pos waits], fun x => ?_⟩
    rcases heard with rfl | earlier
    · exact le_rfl
    · obtain ⟨pending, before, bound⟩ := inv.covered inside earlier
      exact (bound x).trans (covers u pending vc before found x)
  | postWait t =>
    obtain ⟨present, vc, found⟩ := allowed
    obtain ⟨r', now, stepped', waiting, notified, _, signals, _⟩ :=
      postWait_spec found ((inv.waiters t).mp present)
    cases stepped.symm.trans stepped'
    rw [waiting, Function.update_apply] at inside
    rw [notified] at heard
    split at inside
    · exact nomatch inside
    · next other =>
        rw [signals, if_neg (Ne.symm other)]
        exact inv.covered inside heard
  | other b =>
    cases stepped
    have same : ({ r with base := b } : CondRun G).condMeta addr = r.condMeta addr := by
      simp only [condMeta, show b.condMetaTable[addr]? = r.base.condMetaTable[addr]? from allowed]
    rw [same]
    exact inv.covered inside heard

theorem covered_initial (start : Initial addr r) : Covered addr r := by
  obtain ⟨base, rfl, unused⟩ := start
  have blank : ({ base := base } : CondRun G).condMeta addr = {} := by simp [condMeta, unused]
  refine ⟨⟨fun t => ?_, fun {t vc} pending => ?_⟩, fun inside _ => nomatch inside⟩
  · simp [blank]
  · simp [blank] at pending

/-- Runs in which every notification satisfies `cond`. -/
def ReachableBy (addr : Address) (cond : CondRun G → CondCall G → Prop) : CondRun G → Prop :=
  Runs.Reach (Initial addr) (fun r call => r.Allows addr call ∧ cond r call) (step addr)

/-- The clocks that `t` has heard of are below its own after `ProcessPostWait`. -/
def Orders (r : CondRun G) (t : ThreadId) (r' : CondRun G) : Prop :=
  ∀ vc ∈ r.notified t, ∃ now, r'.base.currVcMap[t]? = some now ∧ ∀ x, vc.getClock x ≤ now.getClock x

theorem ReachableBy.inv {cond : CondRun G → CondCall G → Prop} (reached : ReachableBy addr cond r) : Inv addr r := by
  refine Runs.Reach.invariant (Inv addr) (fun _ start => (covered_initial start).toInv) ?_ reached
  intro s call s' inv allowed stepped
  obtain ⟨next, stepped', kept⟩ := inv.step allowed.1
  cases stepped.symm.trans stepped'
  exact kept

/-- Signals are pending for waiters only, and no call fails, in every run. In runs whose
notifications cover the signals they overwrite, every notification is ordered before the
waiters it may wake. -/
theorem notifications_order_waiters (addr : Address) (r : CondRun G) :
    (ReachableBy addr (fun _ _ => True) r →
      (∀ t, t ∈ (r.condMeta addr).signalTable → t ∈ (r.condMeta addr).waitTable) ∧
        ∀ call, r.Allows addr call → ∃ r', r.step addr call = some r') ∧
    (ReachableBy addr (Covers addr) r → ∀ t r', r.Allows addr (.postWait t) →
      r.step addr (.postWait t) = some r' → r.Orders t r') := by
  refine ⟨fun reached => ⟨fun t member => ?_, fun call allowed => ?_⟩, ?_⟩
  · have inv := reached.inv
    rw [Std.ExtTreeMap.mem_iff_isSome_getElem?, Option.isSome_iff_exists] at member
    obtain ⟨vc, pending⟩ := member
    exact (inv.waiters t).mp (inv.signals pending)
  · obtain ⟨r', stepped, _⟩ := reached.inv.step allowed
    exact ⟨r', stepped⟩
  · intro reached t r' allowed stepped vc heard
    have inv : Covered addr r := Runs.Reach.invariant (Covered addr) (fun _ start => covered_initial start)
      (fun _ _ _ inv allowed stepped => inv.step allowed.1 allowed.2 stepped) reached
    obtain ⟨inside, currVc, found⟩ := allowed
    obtain ⟨next, now, stepped', _, _, _, _, after, dominates⟩ :=
      postWait_spec found ((inv.waiters t).mp inside)
    cases stepped.symm.trans stepped'
    obtain ⟨pending, signal, bound⟩ := inv.covered inside heard
    exact ⟨now, after, fun x => (bound x).trans (dominates pending signal x)⟩

/-- Three threads that have not seen each other. -/
def strangers : DetectorBase Unit where
  currVcMap := ((Std.ExtTreeMap.empty.insert 1 (.increment {} 1)).insert 2 (.increment {} 2)).insert 3
    (.increment {} 3)
  own := ()

def waitingRun : CondRun Unit := (step 8 { base := strangers } (.preWait 1)).getD { base := strangers }

/-- Behind the notifications of threads 2 and 3. -/
def notifiedRun (first : List ThreadId) : CondRun Unit :=
  first.foldl (fun r t => (r.step 8 (.notify t)).getD r) waitingRun

theorem waitingRun_reachable (cond : CondRun Unit → CondCall Unit → Prop)
    (admits : ∀ r t, cond r (.preWait t)) : ReachableBy 8 cond waitingRun := by
  exact .next (.preWait 1) (.start ⟨strangers, rfl, rfl⟩) ⟨⟨rfl, .increment {} 1, rfl⟩, admits _ _⟩ rfl

theorem notifiedRun_reachable : ReachableBy 8 (Covers 8) (notifiedRun [2]) := by
  refine .next (.notify 2) (waitingRun_reachable _ (fun _ _ => trivial)) ⟨⟨.increment {} 2, rfl⟩, ?_⟩ rfl
  intro u pending vc found
  change (∅ : OrdMap ThreadId VectorClock)[u]? = some pending at found
  simp at found

/-- The clock of thread 3 when thread 2 has handed it its own. -/
def handedClock : VectorClock := (VectorClock.increment {} 3).join (((notifiedRun [2]).base.currVcMap[2]?).getD {})

/-- Thread 3 has seen the notification of thread 2 before it makes its own. -/
def handedRun : CondRun Unit := { notifiedRun [2] with base := (notifiedRun [2]).base.setVc 3 handedClock }

/-- Both notifications reach thread 1, as the second one covers the first. -/
theorem notifications_order_waiters_pair : ∃ r r' : CondRun Unit, ReachableBy 8 (Covers 8) r ∧
    (r.notified 1).length = 2 ∧ r.step 8 (.postWait 1) = some r' ∧ r.Orders 1 r' ∧
    ∀ t, t ∈ (r.condMeta 8).signalTable → t ∈ (r.condMeta 8).waitTable := by
  have handed : ReachableBy 8 (Covers 8) handedRun :=
    .next (.other handedRun.base) notifiedRun_reachable ⟨rfl, trivial⟩ rfl
  have clock : handedRun.base.currVcMap[3]? = some handedClock := by simp [handedRun, DetectorBase.setVc]
  have covers : handedRun.Covers 8 (.notify 3) := by
    have below : ((handedRun.condMeta 8).signalTable.toList.all fun entry =>
        entry.2.happensBefore (handedRun.notifyClock 8 handedClock)) = true := by
      decide +kernel
    intro u pending vc found current
    cases clock.symm.trans current
    have member := Std.ExtTreeMap.mem_toList_iff_getElem?_eq_some.mpr found
    exact VectorClock.getClock_le_of_happensBefore (List.all_eq_true.mp below _ member)
  obtain ⟨r, stepped, waiting, notified, -⟩ := notify_spec 8 clock
  have reached : ReachableBy 8 (Covers 8) r := .next (.notify 3) handed ⟨⟨_, clock⟩, covers⟩ stepped
  have every : ReachableBy 8 (fun _ _ => True) r :=
    Runs.Reach.mono (fun _ _ allowed => ⟨allowed.1, trivial⟩) reached
  have waits : r.waiting 1 = true := by rw [waiting]; rfl
  have present : ∃ vc, r.base.currVcMap[(1 : ThreadId)]? = some vc := by
    have evaluated : (handedRun.step 8 (.notify 3)).all (·.base.currVcMap[(1 : ThreadId)]?.isSome) = true := by
      decide +kernel
    rw [stepped] at evaluated
    exact Option.isSome_iff_exists.mp evaluated
  obtain ⟨signalled, total⟩ := (notifications_order_waiters 8 r).1 every
  obtain ⟨r', woken⟩ := total (.postWait 1) ⟨waits, present⟩
  have orders := (notifications_order_waiters 8 r).2 reached 1 r' ⟨waits, present⟩ woken
  exact ⟨r, r', reached, by rw [notified]; rfl, woken, orders, signalled⟩

/-- Thread 1 wakes up without the clock of thread 2, whose notification is
overwritten by that of thread 3. -/
theorem notification_lost : ∃ r', ReachableBy 8 (fun _ _ => True) (notifiedRun [2, 3]) ∧
    (notifiedRun [2, 3]).Allows 8 (.postWait 1) ∧
    (notifiedRun [2, 3]).step 8 (.postWait 1) = some r' ∧ ¬ (notifiedRun [2, 3]).Orders 1 r' := by
  have reached : ReachableBy 8 (fun _ _ => True) (notifiedRun [2, 3]) :=
    .next (.notify 3) (.next (.notify 2) (waitingRun_reachable _ (fun _ _ => trivial))
      ⟨⟨.increment {} 2, rfl⟩, trivial⟩ rfl) ⟨⟨.increment {} 3, rfl⟩, trivial⟩ rfl
  refine ⟨_, reached, ⟨rfl, .increment (.increment {} 1) 1, rfl⟩, rfl, fun ordered => ?_⟩
  obtain ⟨now, found, bound⟩ := ordered (((notifiedRun [2, 3]).notified 1)[1]) (by decide)
  have current := bound 2
  cases found
  revert current
  decide

end CondRun
end Maple.Race
