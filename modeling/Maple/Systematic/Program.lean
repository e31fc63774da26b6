import Maple.Core.BasicTypes

/-! Actions and states of `systematic/program.h`. Threads and objects are compared by
their addresses only. -/
namespace Maple.Systematic

/-- Identity of a `Thread *`. -/
abbrev Thread := ℕ

/-- Identity of an `Object *`. -/
abbrev Object := ℕ

inductive Operation where
  | invalid | threadStart | threadEnd | threadCreate | threadJoin
  | mutexLock | mutexUnlock | mutexTrylock
  | condWait | condSignal | condBroadcast | condTimedwait
  | barrierInit | barrierWait
  | memRead | memWrite
  | sleep | usleep | nanosleep | schedYield
  deriving DecidableEq

structure Action where
  thd : Thread
  obj : Option Object := none
  op : Operation
  inst : Option InstId := none
  tc : ℕ := 0
  oc : ℕ := 0
  isYieldOp : Bool := false
  deriving DecidableEq

/-- Whether the action may modify the state of the program. -/
def Action.isWrite (a : Action) : Bool := a.op ≠ .memRead

/-- `enabled` lists the entries of the map in its order of iteration. -/
structure State where
  enabled : List Action := []
  taken : Option Action := none

namespace State
variable {state state' : State} {a : Action} {t : Thread}

def isTerminal (s : State) : Bool := s.enabled.isEmpty
def findEnabled (s : State) (thd : Thread) : Option Action := s.enabled.find? (·.thd = thd)
def isEnabled (s : State) (thd : Thread) : Bool := s.enabled.any (·.thd = thd)

theorem isEnabled_iff {s : State} {thd : Thread} :
    s.isEnabled thd = true ↔ ∃ a ∈ s.enabled, a.thd = thd := by
  simp [isEnabled]

/-- The threads of a map of actions are distinct. -/
def Distinct (s : State) : Prop := (s.enabled.map (·.thd)).Nodup

theorem Distinct.findEnabled_iff (distinct : state.Distinct) :
    state.findEnabled t = some a ↔ a ∈ state.enabled ∧ a.thd = t := by
  constructor
  · intro found
    exact ⟨List.mem_of_find?_eq_some found, by simpa using List.find?_some found⟩
  · rintro ⟨member, rfl⟩
    cases found : state.findEnabled a.thd with
    | none =>
      have other := List.find?_eq_none.mp found a member
      simp at other
    | some b =>
      have same : b.thd = a.thd := by simpa using List.find?_some found
      rw [List.inj_on_of_nodup_map distinct (List.mem_of_find?_eq_some found) member same]

/-- The order of the map does not matter to a lookup. -/
theorem Distinct.findEnabled_perm (distinct : state.Distinct) (same : state.enabled.Perm state'.enabled) :
    state.findEnabled t = state'.findEnabled t := by
  have distinct' : state'.Distinct := (same.map _).nodup_iff.mp distinct
  apply Option.ext
  intro a
  rw [distinct.findEnabled_iff, distinct'.findEnabled_iff, same.mem_iff]

theorem isEnabled_perm (same : state.enabled.Perm state'.enabled) : state.isEnabled t = state'.isEnabled t :=
  same.any_eq

end State

/-- Entries with distinct keys, put into a map one after the other. -/
theorem getElem?_foldl_insert {A V : Type} (key : A → ℕ) (value : A → V) (entries : List A)
    (distinct : (entries.map key).Nodup) (map : OrdMap ℕ V) (k : ℕ) :
    (entries.foldl (fun map x => map.insert (key x) (value x)) map)[k]? =
      ((entries.find? (key · = k)).map value).or map[k]? := by
  induction entries generalizing map with
  | nil => simp
  | cons x rest ih =>
    obtain ⟨apart, distinct⟩ := List.nodup_cons.mp distinct
    rw [List.foldl_cons, ih distinct, getElem?_insert_thread]
    by_cases same : key x = k
    · subst same
      have absent : rest.find? (key · = key x) = none := by
        rw [List.find?_eq_none]
        intro y member
        simpa using fun equal => apart (List.mem_map.mpr ⟨y, member, equal⟩)
      simp [absent]
    · simp [same]

end Maple.Systematic
