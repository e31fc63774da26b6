import Maple.Systematic.ControllerRuns

/-! Among all the other operations of the controller, a condition variable goes through the
steps of the machine that models it alone. -/
namespace Maple.Systematic

namespace CondInfo
variable {c c₁ c₂ : CondInfo} {enable₁ enable₂ enable₁' enable₂' : EnableTable} {self : ThreadId}

/-- The table of the threads decides only whether an assertion fails. -/
theorem condSignal_unique (first : c.condSignal enable₁ = some (c₁, enable₁'))
    (second : c.condSignal enable₂ = some (c₂, enable₂')) : c₁ = c₂ := by
  simp only [condSignal, Option.bind_eq_bind, Option.bind_eq_some_iff, Option.pure_def, Option.some.injEq,
    Prod.mk.injEq] at first second
  obtain ⟨_, _, rfl, _⟩ := first
  obtain ⟨_, _, rfl, _⟩ := second
  rfl

theorem condBroadcast_unique (first : c.condBroadcast enable₁ = some (c₁, enable₁'))
    (second : c.condBroadcast enable₂ = some (c₂, enable₂')) : c₁ = c₂ := by
  simp only [condBroadcast, Option.bind_eq_bind, Option.bind_eq_some_iff, Option.pure_def, Option.some.injEq,
    Prod.mk.injEq] at first second
  obtain ⟨_, _, rfl, _⟩ := first
  obtain ⟨_, _, rfl, _⟩ := second
  rfl

theorem consume_unique {id : BitVec 32} (first : c.consume enable₁ self id = some (c₁, enable₁'))
    (second : c.consume enable₂ self id = some (c₂, enable₂')) : c₁ = c₂ := by
  simp only [consume, Option.bind_eq_bind, Option.bind_eq_some_iff, Option.pure_def, Option.some.injEq,
    Prod.mk.injEq] at first second
  obtain ⟨_, _, rfl, _⟩ := first
  obtain ⟨_, _, rfl, _⟩ := second
  rfl

theorem condWait_unique (first : c.condWait enable₁ self = some (c₁, enable₁'))
    (second : c.condWait enable₂ self = some (c₂, enable₂')) : c₁ = c₂ := by
  simp only [condWait] at first second
  split at first
  · next reached =>
    rw [if_pos reached] at second
    simp only [Option.pure_def, Option.some.injEq, Prod.mk.injEq] at first second
    exact first.1.symm.trans second.1
  · next unreached =>
    rw [if_neg unreached] at second
    simp only [Option.bind_eq_bind, Option.bind_eq_some_iff, Option.pure_def, Option.some.injEq, Prod.mk.injEq,
      Prod.exists] at first second
    obtain ⟨id, taken, d₁, _, ran₁, rfl, _⟩ := first
    obtain ⟨id', taken', d₂, _, ran₂, rfl, _⟩ := second
    cases taken.symm.trans taken'
    rw [consume_unique ran₁ ran₂]

theorem condTimedwait_unique {late₁ late₂ : Bool} (first : c.condTimedwait enable₁ self = some (late₁, c₁, enable₁'))
    (second : c.condTimedwait enable₂ self = some (late₂, c₂, enable₂')) : c₁ = c₂ := by
  simp only [condTimedwait] at first second
  split at first
  · next reached =>
    rw [if_pos reached] at second
    simp only [Option.pure_def, Option.some.injEq, Prod.mk.injEq] at first second
    exact first.2.1.symm.trans second.2.1
  · next unreached =>
    rw [if_neg unreached] at second
    cases taken : firstSignal (c.waitMap[self]?.getD {}).signalSet with
    | none =>
      simp only [taken, Option.pure_def, Option.some.injEq, Prod.mk.injEq] at first second
      exact first.2.1.symm.trans second.2.1
    | some id =>
      simp only [taken, Option.bind_eq_bind, Option.bind_eq_some_iff, Option.pure_def, Option.some.injEq, Prod.mk.injEq,
        Prod.exists] at first second
      obtain ⟨d₁, _, ran₁, _, rfl, _⟩ := first
      obtain ⟨d₂, _, ran₂, _, rfl, _⟩ := second
      rw [consume_unique ran₁ ran₂]

end CondInfo

namespace Controller
variable {c c' : Controller} {self t : ThreadId} {call : Call} {err : Errno} {a : Address}

theorem condInfo_setCond (c : Controller) (b : Address) (info : CondInfo × EnableTable) (a : Address) :
    (c.setCond b info).condInfo a = if a = b then info.1 else c.condInfo a := Function.update_apply _ _ _ _

/-- A call changes a condition variable before its schedule point only if it waits there. -/
theorem condInfo_before (ran : c.before self call = some c') (a : Address) : c'.condInfo a = c.condInfo a ∨
    ∃ timed, call.awaits = some (.cond a timed) ∧ c'.condInfo a = ((c.condInfo a).startWait c.enableTable self timed).1 := by
  cases call with
  | mutexLock b =>
    obtain ⟨info, _, rfl⟩ := Option.map_eq_some_iff.mp ran
    exact Or.inl rfl
  | barrierWait b =>
    obtain ⟨info, _, rfl⟩ := Option.map_eq_some_iff.mp ran
    exact Or.inl rfl
  | condWait b =>
    cases ran
    rw [condInfo_setCond]
    split
    · next same => exact Or.inr ⟨false, by rw [same]; rfl, by rw [same]⟩
    · exact Or.inl rfl
  | condTimedwait b =>
    cases ran
    rw [condInfo_setCond]
    split
    · next same => exact Or.inr ⟨true, by rw [same]; rfl, by rw [same]⟩
    · exact Or.inl rfl
  | _ =>
    cases ran
    exact Or.inl rfl

/-- What a call does to a condition variable after its schedule point. -/
theorem condInfo_after (ran : c.after self call = some (err, c')) (a : Address) : c'.condInfo a = c.condInfo a ∨
    (call = .condSignal a ∧ ∃ enable, (c.condInfo a).condSignal c.enableTable = some (c'.condInfo a, enable)) ∨
    (call = .condBroadcast a ∧ ∃ enable, (c.condInfo a).condBroadcast c.enableTable = some (c'.condInfo a, enable)) ∨
    (call = .condWait a ∧ ∃ enable, (c.condInfo a).condWait c.enableTable self = some (c'.condInfo a, enable)) ∨
    (call = .condTimedwait a ∧ ∃ late enable,
      (c.condInfo a).condTimedwait c.enableTable self = some (late, c'.condInfo a, enable)) := by
  cases call with
  | condSignal b =>
    obtain ⟨info, made, same⟩ := Option.map_eq_some_iff.mp ran
    cases same
    rw [condInfo_setCond]
    split
    · next same => exact Or.inr (Or.inl ⟨by rw [same], info.2, by rw [same]; exact made⟩)
    · exact Or.inl rfl
  | condBroadcast b =>
    obtain ⟨info, made, same⟩ := Option.map_eq_some_iff.mp ran
    cases same
    rw [condInfo_setCond]
    split
    · next same => exact Or.inr (Or.inr (Or.inl ⟨by rw [same], info.2, by rw [same]; exact made⟩))
    · exact Or.inl rfl
  | condWait b =>
    obtain ⟨info, made, same⟩ := Option.map_eq_some_iff.mp ran
    cases same
    rw [condInfo_setCond]
    split
    · next same => exact Or.inr (Or.inr (Or.inr (Or.inl ⟨by rw [same], info.2, by rw [same]; exact made⟩)))
    · exact Or.inl rfl
  | condTimedwait b =>
    obtain ⟨info, made, same⟩ := Option.map_eq_some_iff.mp ran
    cases same
    rw [condInfo_setCond]
    split
    · next same => exact Or.inr (Or.inr (Or.inr (Or.inr ⟨by rw [same], info.1, info.2.2, by rw [same]; exact made⟩)))
    · exact Or.inl rfl
  | mutexTrylock b =>
    obtain ⟨info, _, same⟩ := Option.map_eq_some_iff.mp ran
    cases same
    exact Or.inl rfl
  | mutexLock b =>
    obtain ⟨info, _, same⟩ := Option.map_eq_some_iff.mp ran
    cases same
    exact Or.inl rfl
  | mutexUnlock b =>
    obtain ⟨info, _, same⟩ := Option.map_eq_some_iff.mp ran
    cases same
    exact Or.inl rfl
  | barrierInit b count =>
    simp only [after, Option.bind_eq_bind, Option.bind_eq_some_iff, Option.pure_def, Option.some.injEq,
      Prod.mk.injEq] at ran
    obtain ⟨_, _, _, rfl⟩ := ran
    exact Or.inl rfl
  | _ =>
    cases ran
    exact Or.inl rfl

end Controller

namespace CondRun
variable {q s : CondRun} {t : ThreadId} {c : CondInfo} {enable enable' : EnableTable}

theorem signal_follows (reached : q.Reachable Short) (few : q.info.currSignalId.toNat + 1 < 2 ^ 32)
    (ran : q.info.condSignal enable = some (c, enable')) : ∃ s : CondRun, s.Reachable Short ∧ s.info = c := by
  have inv := Reachable.inv reached
  have short : q.Short .signal := ⟨trivial, by rw [inv.counter] at few; exact few⟩
  obtain ⟨s, stepped, _⟩ := inv.step short
  refine ⟨s, .next _ reached short stepped, ?_⟩
  simp only [step, Option.bind_eq_bind, Option.bind_eq_some_iff, Option.pure_def, Option.some.injEq, Prod.exists] at stepped
  obtain ⟨info, _, made, rfl⟩ := stepped
  exact CondInfo.condSignal_unique made ran

theorem broadcast_follows (reached : q.Reachable Short) (ran : q.info.condBroadcast enable = some (c, enable')) :
    ∃ s : CondRun, s.Reachable Short ∧ s.info = c := by
  have inv := Reachable.inv reached
  have short : q.Short .broadcast := ⟨trivial, trivial⟩
  obtain ⟨s, stepped, _⟩ := inv.step short
  refine ⟨s, .next _ reached short stepped, ?_⟩
  simp only [step, Option.bind_eq_bind, Option.bind_eq_some_iff, Option.pure_def, Option.some.injEq, Prod.exists] at stepped
  obtain ⟨info, _, made, rfl⟩ := stepped
  exact CondInfo.condBroadcast_unique made ran

theorem Inv.timed?_eq (inv : q.Inv) (t : ThreadId) : q.info.timed? t = (q.waits t).map Wait.timed := by
  cases waits : q.waits t with
  | some wait =>
    obtain ⟨w, found, described⟩ := inv.found waits
    simp [CondInfo.timed?, found, described.timed]
  | none =>
    have absent : t ∉ q.info.waitMap := by simp [← inv.waiting, waits]
    simp [CondInfo.timed?, absent]

/-- The thread may have been disabled elsewhere before. -/
theorem startWait_follows (reached : q.Reachable Short) (absent : q.info.timed? t = none) (timed : Bool)
    (enable : EnableTable) : ∃ s : CondRun, s.Reachable Short ∧ s.info = (q.info.startWait enable t timed).1 := by
  have inv := Reachable.inv reached
  have away : q.waits t = none := by
    rw [inv.timed?_eq] at absent
    exact Option.map_eq_none_iff.mp absent
  have awake : ({ q with enable := Function.update q.enable t true } : CondRun).Reachable Short :=
    .next (.other t true) reached ⟨away, trivial⟩ rfl
  exact ⟨_, .next (.startWait t timed) awake ⟨⟨away, Function.update_self _ _ _⟩, trivial⟩ rfl, rfl⟩

theorem endWait_follows (reached : q.Reachable Short) {timed : Bool} (waits : q.info.timed? t = some timed)
    (awake : ∀ w, q.info.waitMap[t]? = some w → w.asleep = false)
    (untimedly : timed = false → ∃ enable', q.info.condWait enable t = some (c, enable'))
    (timedly : timed = true → ∃ late enable', q.info.condTimedwait enable t = some (late, c, enable')) :
    ∃ s : CondRun, s.Reachable Short ∧ s.info = c := by
  have inv := Reachable.inv reached
  obtain ⟨w, found, same⟩ := Option.map_eq_some_iff.mp waits
  obtain ⟨wait, waiting, described⟩ := inv.waits found
  have short : q.Short (.endWait t) := ⟨⟨by rw [waiting]; rfl, by rw [described.enabled, awake w found]; rfl⟩, trivial⟩
  obtain ⟨s, stepped, _⟩ := inv.step short
  refine ⟨s, .next _ reached short stepped, ?_⟩
  have kind : wait.timed = timed := described.timed.symm.trans same
  cases timed with
  | false =>
    obtain ⟨enable', ran⟩ := untimedly rfl
    simp only [step, waiting, kind, Bool.false_eq_true, if_false, Option.bind_eq_bind, Option.bind_some,
      Option.bind_eq_some_iff, Option.pure_def, Option.some.injEq, Prod.exists] at stepped
    obtain ⟨info, _, made, rfl⟩ := stepped
    exact CondInfo.condWait_unique made ran
  | true =>
    obtain ⟨late, enable', ran⟩ := timedly rfl
    simp only [step, waiting, kind, if_true, Option.bind_eq_bind, Option.bind_some, Option.bind_eq_some_iff,
      Option.pure_def, Option.some.injEq, Prod.exists, Option.map_eq_some_iff] at stepped
    obtain ⟨info, _, ⟨_, _, _, made, same⟩, rfl⟩ := stepped
    cases same
    exact CondInfo.condTimedwait_unique made ran

end CondRun

namespace ControlRun
variable {r s : ControlRun} {self t : ThreadId} {p : Pending} {a : Address}

/-- The identifier of the next signal does not wrap around. -/
def Few (r : ControlRun) : Call → Prop
  | .condSignal a => (r.control.condInfo a).currSignalId.toNat + 1 < 2 ^ 32
  | _ => True

instance decidableFew (r : ControlRun) (call : Call) : Decidable (r.Few call) := by
  induction call using Call.casesOn <;> simp only [Few] <;> infer_instance

def FewSignals (r : ControlRun) : ControlEvent → Prop
  | .resume self => ∀ p ∈ r.control.actionTable[self]?, r.Few p.call
  | _ => True

instance decidableFewSignals (r : ControlRun) (e : ControlEvent) : Decidable (r.FewSignals e) := by
  induction e using ControlEvent.casesOn <;> simp only [FewSignals] <;> infer_instance

/-- The steps of a run with fewer than 2^32 signals on each condition variable. -/
def Short (r : ControlRun) (e : ControlEvent) : Prop := r.Allows e ∧ r.FewSignals e

instance decidableShort (r : ControlRun) (e : ControlEvent) : Decidable (r.Short e) :=
  inferInstanceAs (Decidable (_ ∧ _))

/-- A run of the machine that models one condition variable has led here. -/
def Matched (r : ControlRun) (a : Address) : Prop := ∃ q : CondRun, q.Reachable CondRun.Short ∧
  q.info = r.control.condInfo a

theorem Inv.call_matched (inv : r.Inv) (matched : r.Matched a) (unregistered : r.control.actionTable[self]? = none)
    (ran : r.step (.call self p) = some s) : s.Matched a := by
  obtain ⟨q, reached, same⟩ := matched
  simp only [ControlRun.step, Controller.register, Option.bind_eq_bind, Option.bind_eq_some_iff, Option.pure_def,
    Option.some.injEq] at ran
  obtain ⟨_, ⟨_, _, c, ran, rfl⟩, rfl⟩ := ran
  rw [recordCall_eq]
  rcases r.control.condInfo_before ran a with kept | ⟨timed, waits, changed⟩
  · exact ⟨q, reached, same.trans kept.symm⟩
  · have absent : q.info.timed? self = none := by
      rw [same, Option.eq_none_iff_forall_ne_some]
      intro other found
      have := (inv.tables.cond a self other).mp found
      simp [awaits_none unregistered] at this
    obtain ⟨q', reached', same'⟩ := CondRun.startWait_follows reached absent timed r.control.enableTable
    exact ⟨q', reached', by rw [same', same, changed]⟩

theorem Inv.resume_matched (inv : r.Inv) (matched : r.Matched a) (found : r.control.actionTable[self]? = some p)
    (enabled : r.control.enableTable self = true) (few : r.Few p.call) (ran : r.step (.resume self) = some s) :
    s.Matched a := by
  obtain ⟨q, reached, same⟩ := matched
  simp only [ControlRun.step, Controller.resume, found, Option.bind_eq_bind, Option.bind_some, Option.bind_eq_some_iff,
    Option.pure_def, Option.some.injEq, Prod.exists] at ran
  obtain ⟨err, c, ⟨_, _, ran⟩, rfl⟩ := ran
  rw [recordReturn_eq]
  have awake : ∀ w, q.info.waitMap[self]? = some w → w.asleep = false := by
    intro w waits
    have := inv.exact.condSync inv.tables a self w (same ▸ waits)
    rw [enabled] at this
    simpa using this.symm
  rcases Controller.condInfo_after ran a with kept | ⟨called, enable, made⟩ | ⟨called, enable, made⟩ |
      ⟨called, enable, made⟩ | ⟨called, late, enable, made⟩
  · exact ⟨q, reached, same.trans kept.symm⟩
  · rw [called] at few
    exact CondRun.signal_follows reached (same ▸ few) (same ▸ made)
  · exact CondRun.broadcast_follows reached (same ▸ made)
  · have waits : q.info.timed? self = some false := by
      rw [same, inv.tables.cond]
      simp [Controller.awaits, found, called, Call.awaits]
    exact CondRun.endWait_follows reached waits awake (fun _ => ⟨enable, same ▸ made⟩) (by simp)
  · have waits : q.info.timed? self = some true := by
      rw [same, inv.tables.cond]
      simp [Controller.awaits, found, called, Call.awaits]
    exact CondRun.endWait_follows reached waits awake (by simp) fun _ => ⟨late, enable, same ▸ made⟩

theorem Inv.step_matched (inv : r.Inv) (matched : r.Matched a) {e : ControlEvent} (short : r.Short e)
    (ran : r.step e = some s) : s.Matched a := by
  obtain ⟨allowed, few⟩ := short
  cases e with
  | start self =>
    cases ran
    exact matched
  | call self p => exact inv.call_matched matched allowed.2.1 ran
  | resume self =>
    obtain ⟨enabled, p, found, _⟩ := allowed
    exact inv.resume_matched matched found enabled (few p found) ran
  | endRace self =>
    cases ran
    exact matched
  | exit self =>
    simp only [ControlRun.step, Controller.handleThreadExit, Option.bind_eq_bind, Option.bind_eq_some_iff, Option.pure_def,
      Option.some.injEq] at ran
    obtain ⟨_, ⟨_, _, rfl⟩, rfl⟩ := ran
    exact matched

end ControlRun

/-- Whatever else the threads do, each condition variable of the controller has gone through
the steps of the machine that models it alone, whose waiters are those of the controller. -/
theorem cond_infos_matched {r : ControlRun} (reached : Runs.Reach (· = {}) ControlRun.Short ControlRun.step r)
    (a : Address) : ∃ q : CondRun, q.Reachable CondRun.Short ∧ q.info = r.control.condInfo a ∧
      ∀ t timed, (q.waits t).map Wait.timed = some timed ↔ r.control.awaits t = some (.cond a timed) := by
  have kept : r.Inv ∧ r.Matched a := by
    apply reached.invariant fun r => r.Inv ∧ r.Matched a
    · rintro r rfl
      exact ⟨ControlRun.inv_initial, {}, .start ⟨_, rfl⟩, rfl⟩
    · rintro r e s ⟨inv, matched⟩ short ran
      obtain ⟨next, stepped, kept⟩ := inv.step short.1
      cases ran.symm.trans stepped
      exact ⟨kept, inv.step_matched matched short ran⟩
  obtain ⟨inv, q, followed, same⟩ := kept
  refine ⟨q, followed, same, fun t timed => ?_⟩
  rw [← (CondRun.Reachable.inv followed).timed?_eq, same]
  exact inv.tables.cond a t timed

/-- One of two waiters takes a signal while a third thread holds a mutex. -/
theorem cond_infos_matched_pair : ∃ (r : ControlRun) (q : CondRun), q.Reachable CondRun.Short ∧
    q.info = r.control.condInfo 8 ∧ q.info.currSignalId = 1 ∧ r.control.awaits 2 = some (.cond 8 false) := by
  have t : (Runs.follow ControlRun.Short ControlRun.step {} [.start 1, .start 2, .start 3, .call 1 ⟨.condWait 8, 0⟩,
      .call 2 ⟨.condWait 8, 0⟩, .call 3 ⟨.mutexLock 16, 0⟩, .resume 3, .call 3 ⟨.condSignal 8, 0⟩, .resume 3,
      .resume 1]).any (fun r => (r.control.condInfo 8).currSignalId = 1 &&
        r.control.awaits 2 = some (.cond 8 false)) = true := by
    decide +kernel
  obtain ⟨r, reached, found⟩ : ∃ r : ControlRun, Runs.Reach (· = {}) ControlRun.Short ControlRun.step r ∧ _ :=
    Runs.Reach.of_follow (by rfl) _ t
  simp only [Bool.and_eq_true, decide_eq_true_eq] at found
  obtain ⟨q, followed, same, _⟩ := cond_infos_matched reached 8
  exact ⟨r, q, followed, same, same ▸ found.1, found.2⟩

end Maple.Systematic
