import Maple.Core.VectorClock

/-! `pintool/epoch.cpp`. `Equal` and `HappensBefore` compare one component of the
clock, that of the thread in the epoch, with whatever thread the clock belongs to. -/
namespace Maple.Pintool

@[ext] structure Epoch where
  tid : ThreadId := 0
  clock : ℕ := 0
  deriving DecidableEq

namespace Epoch

def isInitial (e : Epoch) : Bool := e.tid = 0 && e.clock = 0

def equal (e : Epoch) (vc : VectorClock) : Bool := !e.isInitial && e.clock = vc.getClock e.tid

def happensBefore (e : Epoch) (vc : VectorClock) : Bool := e.clock ≤ vc.getClock e.tid

def make (tid : ThreadId) (clock : ℕ) : Epoch := ⟨tid, clock⟩

theorem isInitial_iff (e : Epoch) : e.isInitial = true ↔ e = {} := by
  simp [isInitial, Epoch.ext_iff]

theorem equal_iff (e : Epoch) (vc : VectorClock) :
    e.equal vc = true ↔ e ≠ {} ∧ e.clock = vc.getClock e.tid := by
  simp only [equal, Bool.and_eq_true, Bool.not_eq_true', decide_eq_true_eq, ← Bool.not_eq_true,
    isInitial_iff, ne_eq]

theorem happensBefore_iff (e : Epoch) (vc : VectorClock) :
    e.happensBefore vc = true ↔ e.clock ≤ vc.getClock e.tid := by simp [happensBefore]

end Epoch
end Maple.Pintool
