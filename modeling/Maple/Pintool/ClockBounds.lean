import Maple.Pintool.Eraser
import Maple.Pintool.FastTrack
import Maple.Pintool.HistLock
import Maple.Pintool.HistLockPlus
import Maple.Race.ClockBounds

/-! The detectors of the pintools tick their clocks at most once where the base class does:
`clocks_bounded` is about each of them. -/
namespace Maple.Pintool
open Race

theorem djit_ticks : djit.Ticks := .base rfl rfl rfl

theorem fastTrack_ticks : fastTrack.Ticks := .base rfl rfl rfl

section Locksets
variable {G M : Type} {alg : Algorithm G M} {b b' : DetectorBase G} {curr child : ThreadId} {n : ℕ}

/-- `AfterPthreadJoin` of the subclasses that tick after the base class has joined. -/
theorem joinTick_within (within : b.ClocksWithin n) (result : (do
      let joined ← b.afterPthreadJoin curr child
      let currVc ← joined.currVcMap[curr]?
      return joined.setVc curr (currVc.increment curr)) = some b') : b'.ClocksWithin (n + 1) := by
  obtain ⟨joined, ran, result⟩ := Option.bind_eq_some_iff.mp result
  obtain ⟨currVc, found, same⟩ := Option.bind_eq_some_iff.mp result
  cases same
  exact (within.afterPthreadJoin ran).tick found

/-- A lock adds to a set of locks, and an unlock removes from it. -/
theorem ticks_of_locksets (lock : ∀ {b curr addr b'}, alg.processLock b curr addr = some b' →
      ∃ own, b' = { b with own })
    (unlock : ∀ {b curr addr b'}, alg.processUnlock b curr addr = some b' →
      ∃ own, b' = { b with own } ∨ ∃ currVc, b.currVcMap[curr]? = some currVc ∧
        b' = { b.setVc curr (currVc.increment curr) with own })
    (join : ∀ {b curr child b' n}, alg.afterPthreadJoin b curr child = some b' → b.ClocksWithin n →
      b'.ClocksWithin (n + 1)) : alg.Ticks where
  lock result within := by
    obtain ⟨own, rfl⟩ := lock result
    exact within.of_eq rfl rfl rfl rfl
  unlock result within := by
    obtain ⟨own, rfl | ⟨currVc, found, rfl⟩⟩ := unlock result
    · exact (within.mono (Nat.le_succ _)).of_eq rfl rfl rfl rfl
    · exact (within.tick found).of_eq rfl rfl rfl rfl
  join := join

end Locksets

theorem eraser_ticks : eraser.Ticks := by
  refine ticks_of_locksets (fun result => ?_) (fun result => ?_) fun result within => ?_
  · cases result
    exact ⟨_, rfl⟩
  · cases result
    exact ⟨_, Or.inl rfl⟩
  · exact (within.afterPthreadJoin result).mono (Nat.le_succ _)

theorem accuLock_ticks : accuLock.Ticks := by
  refine ticks_of_locksets (fun result => ?_) (fun result => ?_) fun result within => ?_
  · cases result
    exact ⟨_, rfl⟩
  · obtain ⟨currVc, found, same⟩ := Option.bind_eq_some_iff.mp result
    cases same
    exact ⟨_, Or.inr ⟨currVc, found, rfl⟩⟩
  · exact (within.afterPthreadJoin result).mono (Nat.le_succ _)

theorem histLock_ticks : histLock.Ticks := by
  refine ticks_of_locksets (fun result => ?_) (fun result => ?_) fun result within => ?_
  · cases result
    exact ⟨_, rfl⟩
  · obtain ⟨currVc, found, same⟩ := Option.bind_eq_some_iff.mp result
    cases same
    exact ⟨_, Or.inr ⟨currVc, found, rfl⟩⟩
  · exact (within.afterPthreadJoin result).mono (Nat.le_succ _)

theorem histLockPlus_ticks : histLockPlus.Ticks := by
  refine ticks_of_locksets (fun result => ?_) (fun result => ?_) fun result within => ?_
  · cases result
    exact ⟨_, rfl⟩
  · cases result
    exact ⟨_, Or.inl rfl⟩
  · exact joinTick_within within result

theorem multiLock_ticks : multiLock.Ticks := by
  refine ticks_of_locksets (fun result => ?_) (fun result => ?_) fun result within => ?_
  · cases result
    exact ⟨_, rfl⟩
  · cases result
    exact ⟨_, Or.inl rfl⟩
  · exact joinTick_within within result

end Maple.Pintool
