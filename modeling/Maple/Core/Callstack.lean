import Maple.Core.BasicTypes
import Maple.Lib.Runs

/-! `core/callstack.cc`. Returns need not match calls: wrappers return twice, and jumps out of
several frames do not return at all. -/
namespace Maple

structure CallStack where
  signature : BitVec 64 := 0
  instVec : List InstId := []
  targetVec : List Address := []

namespace CallStack

/-- The 32 bits of an instruction id, in a signature. -/
def idWord (ids : InstId → BitVec 32) (inst : InstId) : BitVec 64 := (ids inst).setWidth 64

def onCall (ids : InstId → BitVec 32) (s : CallStack) (inst : InstId) (ret : Address) : CallStack :=
  ⟨s.signature + idWord ids inst, s.instVec ++ [inst], s.targetVec ++ [ret]⟩

/-- The loop of `OnReturn` below an index: `new_size` and `new_signature` of the first match. -/
def search (ids : InstId → BitVec 32) (s : CallStack) (target : Address) :
    ℕ → BitVec 64 → Option (Option (ℕ × BitVec 64))
  | 0, _ => some none
  | idx + 1, newSignature => do
    let inst ← s.instVec[idx]?
    let addr ← s.targetVec[idx]?
    if addr = target then return some (idx, newSignature - idWord ids inst)
    else search ids s target idx (newSignature - idWord ids inst)

/-- The size is an `int`. -/
def intSize (s : CallStack) : ℤ := (BitVec.ofNat 32 s.instVec.length).toInt

def onReturn (ids : InstId → BitVec 32) (s : CallStack) (target : Address) : Option CallStack := do
  debugAssert (s.instVec.length = s.targetVec.length)
  debugAssert (s.instVec ≠ [])
  match ← search ids s target s.intSize.toNat s.signature with
  | none => return s
  | some (newSize, newSignature) => return ⟨newSignature, s.instVec.take newSize, s.targetVec.take newSize⟩

inductive Event where
  | onCall (inst : InstId) (ret : Address)
  | onReturn (target : Address)

def step (ids : InstId → BitVec 32) (s : CallStack) : Event → Option CallStack
  | .onCall inst ret => some (s.onCall ids inst ret)
  | .onReturn target => s.onReturn ids target

/-- The sum of the instruction ids. -/
def idSum (ids : InstId → BitVec 32) (insts : List InstId) : ℕ := (insts.map fun inst => (ids inst).toNat).sum

/-- Both vectors are aligned, and the signature is the sum modulo its word size. -/
structure Inv (ids : InstId → BitVec 32) (s : CallStack) : Prop where
  aligned : s.instVec.length = s.targetVec.length
  signature : s.signature = BitVec.ofNat 64 (idSum ids s.instVec)

/-- The topmost entry with this target. -/
structure Topmost (targetVec : List Address) (target : Address) (k : ℕ) : Prop where
  here : targetVec[k]? = some target
  above : ∀ j, k < j → targetVec[j]? ≠ some target

variable {ids : InstId → BitVec 32} {s next : CallStack} {target : Address} {n k : ℕ}

theorem idWord_eq (inst : InstId) : idWord ids inst = BitVec.ofNat 64 (ids inst).toNat := by
  apply BitVec.eq_of_toNat_eq
  simp [idWord]

theorem idSum_append (insts : List InstId) (inst : InstId) :
    BitVec.ofNat 64 (idSum ids (insts ++ [inst])) = BitVec.ofNat 64 (idSum ids insts) + idWord ids inst := by
  rw [idWord_eq, idSum, idSum, List.map_append, List.sum_append, List.map_singleton, List.sum_singleton,
    BitVec.ofNat_add]

/-- Below an index the search finds the topmost match, with the signature of what is under it. -/
theorem search_spec (ids : InstId → BitVec 32) (aligned : s.instVec.length = s.targetVec.length)
    (bound : n ≤ s.instVec.length) :
    (∃ k, search ids s target n (BitVec.ofNat 64 (idSum ids (s.instVec.take n))) =
        some (some (k, BitVec.ofNat 64 (idSum ids (s.instVec.take k)))) ∧
      k < n ∧ s.targetVec[k]? = some target ∧ ∀ j, k < j → j < n → s.targetVec[j]? ≠ some target) ∨
    search ids s target n (BitVec.ofNat 64 (idSum ids (s.instVec.take n))) = some none ∧
      ∀ j, j < n → s.targetVec[j]? ≠ some target := by
  induction n with
  | zero => exact Or.inr ⟨rfl, nofun⟩
  | succ idx ih =>
    have inst := List.getElem?_eq_getElem (Nat.lt_of_succ_le bound)
    have addr := List.getElem?_eq_getElem (aligned ▸ Nat.lt_of_succ_le bound : idx < s.targetVec.length)
    have popped : BitVec.ofNat 64 (idSum ids (s.instVec.take (idx + 1))) - idWord ids (s.instVec[idx]) =
        BitVec.ofNat 64 (idSum ids (s.instVec.take idx)) := by
      rw [List.take_succ_eq_append_getElem (Nat.lt_of_succ_le bound), idSum_append, BitVec.add_sub_cancel]
    simp only [search, inst, addr, popped, Option.bind_eq_bind, Option.bind_some]
    split
    · next found =>
      exact Or.inl ⟨idx, rfl, Nat.lt_succ_self _, addr.trans (congrArg some found), fun j above below => by omega⟩
    · next other =>
      rcases ih (Nat.le_of_succ_le bound) with ⟨k, searched, below, here, above⟩ | ⟨searched, none_below⟩
      · refine Or.inl ⟨k, searched, Nat.lt_trans below (Nat.lt_succ_self _), here, fun j more less => ?_⟩
        rcases Nat.lt_succ_iff_lt_or_eq.mp less with less | rfl
        · exact above j more less
        · rw [addr]
          exact fun same => other (Option.some.inj same)
      · refine Or.inr ⟨searched, fun j less => ?_⟩
        rcases Nat.lt_succ_iff_lt_or_eq.mp less with less | rfl
        · exact none_below j less
        · rw [addr]
          exact fun same => other (Option.some.inj same)

theorem intSize_eq (fits : s.instVec.length < 2 ^ 31) : s.intSize.toNat = s.instVec.length := by
  have small : (BitVec.ofNat 32 s.instVec.length).toNat = s.instVec.length := by
    rw [BitVec.toNat_ofNat, Nat.mod_eq_of_lt (by omega)]
  rw [intSize, BitVec.toInt_eq_toNat_of_lt (by omega), small, Int.toNat_natCast]

theorem getElem?_ne_of_length (aligned : s.instVec.length = s.targetVec.length) {j : ℕ}
    (beyond : s.instVec.length ≤ j) : s.targetVec[j]? ≠ some target := by
  rw [List.getElem?_eq_none (aligned ▸ beyond)]
  exact nofun

/-- A return pops through the topmost match, and does nothing without one. -/
theorem onReturn_spec (inv : Inv ids s) (fits : s.instVec.length < 2 ^ 31) (occupied : s.instVec ≠ [])
    (target : Address) :
    (∃ k, Topmost s.targetVec target k ∧ k < s.instVec.length ∧ s.onReturn ids target =
        some ⟨BitVec.ofNat 64 (idSum ids (s.instVec.take k)), s.instVec.take k, s.targetVec.take k⟩) ∨
      target ∉ s.targetVec ∧ s.onReturn ids target = some s := by
  have signature : s.signature = BitVec.ofNat 64 (idSum ids (s.instVec.take s.instVec.length)) := by
    rw [List.take_length]
    exact inv.signature
  simp only [onReturn, debugAssert_pos inv.aligned, debugAssert_pos occupied, Option.bind_eq_bind, Option.bind_some,
    intSize_eq fits, signature]
  rcases search_spec ids inv.aligned (Nat.le_refl _) with ⟨k, searched, below, here, above⟩ | ⟨searched, absent⟩
  · refine Or.inl ⟨k, ⟨here, fun j more => ?_⟩, below, by rw [searched]; rfl⟩
    rcases Nat.lt_or_ge j s.instVec.length with inside | beyond
    · exact above j more inside
    · exact getElem?_ne_of_length inv.aligned beyond
  · refine Or.inr ⟨fun member => ?_, by rw [searched]; rfl⟩
    obtain ⟨j, found⟩ := List.getElem?_of_mem member
    exact absent j (inv.aligned ▸ (List.getElem?_eq_some_iff.mp found).1) found

theorem Topmost.unique {targetVec : List Address} {k k' : ℕ} (top : Topmost targetVec target k)
    (top' : Topmost targetVec target k') : k = k' := by
  rcases Nat.lt_trichotomy k k' with less | same | more
  · exact absurd top'.here (top.above k' less)
  · exact same
  · exact absurd top.here (top'.above k more)

/-- The stack has room for one more entry, in the range of an `int`. -/
def Room (s : CallStack) : Event → Prop
  | .onCall .. => s.instVec.length + 1 < 2 ^ 31
  | .onReturn _ => True

instance (s : CallStack) (e : Event) : Decidable (s.Room e) := by
  unfold Room
  split <;> infer_instance

theorem Inv.onCall (inv : Inv ids s) (inst : InstId) (ret : Address) : Inv ids (s.onCall ids inst ret) := by
  constructor
  case aligned => simp only [CallStack.onCall, List.length_append, inv.aligned, List.length_singleton]
  case signature =>
    dsimp only [CallStack.onCall]
    rw [idSum_append, inv.signature]

theorem Inv.onReturn (inv : Inv ids s) (fits : s.instVec.length < 2 ^ 31)
    (ran : s.onReturn ids target = some next) : Inv ids next ∧ next.instVec.length < 2 ^ 31 := by
  have occupied : s.instVec ≠ [] := by
    obtain ⟨_, -, ran⟩ := Option.bind_eq_some_iff.mp ran
    obtain ⟨_, occupied, -⟩ := Option.bind_eq_some_iff.mp ran
    exact (debugAssert_eq_some _).mp occupied
  rcases onReturn_spec inv fits occupied target with ⟨k, -, below, ran'⟩ | ⟨-, ran'⟩
  · cases ran.symm.trans ran'
    refine ⟨⟨?_, rfl⟩, ?_⟩
    · simp only [List.length_take, inv.aligned]
    · simp only [List.length_take]
      omega
  · cases ran.symm.trans ran'
    exact ⟨inv, fits⟩

theorem inv_of_reach (reached : Runs.Reach (· = {}) Room (step ids) s) : Inv ids s ∧ s.instVec.length < 2 ^ 31 := by
  apply reached.invariant fun s => Inv ids s ∧ s.instVec.length < 2 ^ 31
  · rintro _ rfl
    exact ⟨⟨rfl, rfl⟩, by decide⟩
  · rintro s e next ⟨inv, fits⟩ room stepped
    cases e with
    | onCall inst ret =>
      cases stepped
      refine ⟨inv.onCall inst ret, ?_⟩
      have room : s.instVec.length + 1 < 2 ^ 31 := room
      simpa only [CallStack.onCall, List.length_append, List.length_singleton] using room
    | onReturn target => exact inv.onReturn fits stepped

/-- What a return does in a state. -/
structure Pops (ids : InstId → BitVec 32) (s : CallStack) (target : Address) : Prop where
  asserted : s.onReturn ids target = none ↔ s.instVec = []
  matched : ∀ k, Topmost s.targetVec target k → ∃ next, s.onReturn ids target = some next ∧
    next.instVec = s.instVec.take k ∧ next.targetVec = s.targetVec.take k
  unmatched : s.instVec ≠ [] → target ∉ s.targetVec → s.onReturn ids target = some s

/-- However calls and returns come, the signature is that of the stack, and a return pops exactly
through the topmost entry that it matches. -/
theorem callStack_exact (reached : Runs.Reach (· = {}) Room (step ids) s) :
    s.instVec.length = s.targetVec.length ∧ s.signature = BitVec.ofNat 64 (idSum ids s.instVec) ∧
      ∀ target, Pops ids s target := by
  obtain ⟨inv, fits⟩ := inv_of_reach reached
  refine ⟨inv.aligned, inv.signature, fun target => ?_⟩
  by_cases empty : s.instVec = []
  · have none_there : s.targetVec = [] := List.length_eq_zero_iff.mp (inv.aligned ▸ by rw [empty]; rfl)
    refine ⟨iff_of_true ?_ empty, fun k top => ?_, fun occupied => absurd empty occupied⟩
    · rw [CallStack.onReturn, debugAssert_pos inv.aligned, debugAssert, if_neg (not_not.mpr empty)]
      rfl
    · have here := top.here
      rw [none_there] at here
      cases here
  · rcases onReturn_spec inv fits empty target with ⟨k, top, -, ran⟩ | ⟨absent, ran⟩
    · refine ⟨iff_of_false (by simp [ran]) empty, fun k' top' => ?_, fun _ absent => ?_⟩
      · cases top.unique top'
        exact ⟨_, ran, rfl, rfl⟩
      · exact absurd (List.mem_of_getElem? top.here) absent
    · refine ⟨iff_of_false (by simp [ran]) empty, fun k' top' => ?_, fun _ _ => ran⟩
      exact absurd (List.mem_of_getElem? top'.here) absent

/-- A recursive function: the call at address 20 comes back to 24 each time. -/
theorem callStack_exact_recursion :
    let s : CallStack := ⟨25, [5, 10, 10], [9, 24, 24]⟩
    s.instVec.length = s.targetVec.length ∧ s.signature = BitVec.ofNat 64 (idSum (BitVec.ofNat 32) s.instVec) ∧
      ∀ target, Pops (BitVec.ofNat 32) s target := by
  have called : Runs.Reach (· = {}) Room (step (BitVec.ofNat 32)) ⟨25, [5, 10, 10], [9, 24, 24]⟩ :=
    .next (.onCall 10 24) (.next (.onReturn 24) (.next (.onCall 10 24) (.next (.onCall 10 24) (.next (.onCall 5 9)
      (.start rfl) (by decide) rfl) (by decide) rfl) (by decide) rfl) (by decide) rfl) (by decide) rfl
  exact callStack_exact called

/-- As many calls of one instruction. -/
theorem calls_spec (ids : InstId → BitVec 32) (inst : InstId) (ret : Address) (n : ℕ) :
    ∃ signature, (List.replicate n (.onCall inst ret)).foldlM (step ids) {} =
      some ⟨signature, List.replicate n inst, List.replicate n ret⟩ := by
  induction n with
  | zero => exact ⟨0, rfl⟩
  | succ n ih =>
    obtain ⟨signature, called⟩ := ih
    refine ⟨signature + idWord ids inst, ?_⟩
    rw [List.replicate_succ', List.foldlM_append, called, List.replicate_succ', List.replicate_succ']
    rfl

/-- A return on an empty stack fails, and one on a stack whose size is not an `int` is lost. -/
theorem callStack_fails :
    [Event.onReturn 7].foldlM (step (BitVec.ofNat 32)) {} = none ∧
      ∃ s, (List.replicate (2 ^ 31) (.onCall 5 9)).foldlM (step (BitVec.ofNat 32)) {} = some s ∧
        Topmost s.targetVec 9 (2 ^ 31 - 1) ∧ s.onReturn (BitVec.ofNat 32) 9 = some s := by
  refine ⟨rfl, ?_⟩
  obtain ⟨signature, called⟩ := calls_spec (BitVec.ofNat 32) 5 9 (2 ^ 31)
  refine ⟨_, called, ⟨?_, fun j above => ?_⟩, ?_⟩
  · dsimp only
    rw [List.getElem?_replicate, if_pos (by decide)]
  · dsimp only
    rw [List.getElem?_replicate, if_neg (by omega)]
    exact nofun
  · have negative : intSize ⟨signature, List.replicate (2 ^ 31) 5, List.replicate (2 ^ 31) 9⟩ = -2 ^ 31 := by
      rw [intSize, List.length_replicate]
      decide
    have occupied : List.replicate (2 ^ 31) (5 : InstId) ≠ [] := by
      rw [Ne, List.replicate_eq_nil_iff]
      decide
    rw [CallStack.onReturn, negative, debugAssert_pos (by rw [List.length_replicate, List.length_replicate]),
      debugAssert_pos occupied]
    rfl

end CallStack
end Maple
