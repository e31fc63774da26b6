import Maple.Idiom.TraceRuns

/-! Every access is summarised once, by the end of the program. -/
namespace Maple.Idiom.Predictor

/-- The calls are one for each access, with exact flags. -/
structure SummarisedOnce (h : List Happening) (calls : List Call) : Prop where
  once : ∀ (i : ℕ) a, h[i]? = some (.access a) → ∃! n : ℕ, ∃ call, calls[n]? = some call ∧ call.place = some i
  placed : ∀ call ∈ calls, ∃ i, call.place = some i ∧ h[i]? = some (.access call.dynAcc.access) ∧
    FlagsExact h call.dynAcc.metaId call.dynAcc.thdId i call.dynAcc.fls
  ordered : calls.Pairwise Call.Follows

/-- The entries of a thread are its accesses, each with its summary. -/
structure Matured (h : List Happening) (calls : List Call) (t : ThreadId) (ri : RecentInfo) : Prop where
  length : ri.entryVec.length = (placesOf h t).length
  entries : ∀ (k : ℕ) e i, ri.entryVec[k]? = some e → (placesOf h t)[k]? = some i → EntryOk h calls t e i ∧
    ∃ n, e.accSum = some n

variable {h : List Happening} {live : MetaId → Prop} {calls : List Call} {i n k : ℕ} {m : MetaId} {t : ThreadId}

theorem CallsOk.unique (ok : CallsOk live h calls) {call later : Call} (made : calls[n]? = some call)
    (made' : calls[k]? = some later) (place : call.place = some i) (place' : later.place = some i) : n = k := by
  have pair := List.pairwise_iff_getElem.mp ok.ordered
  obtain ⟨bound, rfl⟩ := List.getElem?_eq_some_iff.mp made
  obtain ⟨bound', rfl⟩ := List.getElem?_eq_some_iff.mp made'
  obtain ⟨j, same, found, -⟩ := ok.placed _ (List.getElem_mem bound)
  cases place.symm.trans same
  obtain ⟨j', same', found', -⟩ := ok.placed _ (List.getElem_mem bound')
  cases place'.symm.trans same'
  have same := Happening.access.inj (Option.some.inj (found.symm.trans found'))
  have same_meta : calls[n].dynAcc.metaId = calls[k].dynAcc.metaId := congrArg Access.metaId same
  have same_thread : calls[n].dynAcc.thdId = calls[k].dynAcc.thdId := congrArg Access.thdId same
  rcases Nat.lt_trichotomy n k with less | equal | more
  · exact absurd (pair n k bound bound' less same_meta same_thread i i place place') (lt_irrefl i)
  · exact equal
  · exact absurd (pair k n bound' bound more same_meta.symm same_thread.symm i i place' place) (lt_irrefl i)

namespace State
variable {c : Config} {s next : State}

theorem Core.freeAny (core : Core c (· ∈ s.accHistos) s) (m : MetaId) : ∃ next, s.processFree c m = some next ∧
    Core c (· ∈ next.accHistos) next ∧ next.history = s.history ∧
      ∀ m', m' ∈ next.accHistos ↔ m' ∈ s.accHistos ∧ m' ≠ m := by
  by_cases alive : m ∈ s.accHistos
  · obtain ⟨next, ran, core, freed⟩ := core.processFree alive
    exact ⟨next, ran, core, freed.history, freed.live⟩
  · refine ⟨s, if_neg alive, core, rfl, fun m' => (and_iff_left_of_imp ?_).symm⟩
    rintro here rfl
    exact alive here

theorem Core.exitLoop (core : Core c (· ∈ s.accHistos) s) (entries : List (Address × Meta)) :
    ∃ final, entries.foldlM (fun s entry => s.processFree c entry.2.id) s = some final ∧
      Core c (· ∈ final.accHistos) final ∧ final.history = s.history ∧
      ∀ m, m ∈ final.accHistos → m ∈ s.accHistos ∧ ∀ entry ∈ entries, entry.2.id ≠ m := by
  induction entries generalizing s with
  | nil => exact ⟨s, rfl, core, rfl, fun m alive => ⟨alive, nofun⟩⟩
  | cons entry entries ih =>
    obtain ⟨middle, ran, core, history, live⟩ := core.freeAny entry.2.id
    obtain ⟨final, looped, core, history', left⟩ := ih core
    refine ⟨final, by rw [List.foldlM_cons, ran]; exact looped, core, history'.trans history, fun m alive => ?_⟩
    obtain ⟨still, others⟩ := left m alive
    obtain ⟨before, apart⟩ := (live m).mp still
    exact ⟨before, List.forall_mem_cons.mpr ⟨apart.symm, others⟩⟩

/-- `ProgramExit` frees every meta. -/
theorem Inv.programExit (inv : Inv c s) : ∃ final, s.programExit c = some final ∧
    Core c (· ∈ final.accHistos) final ∧ final.history = s.history ∧ ∀ m, m ∉ final.accHistos := by
  obtain ⟨final, ran, core, history, left⟩ := inv.core.exitLoop s.metaTable.toList
  refine ⟨final, ran, core, history, fun m alive => ?_⟩
  obtain ⟨before, apart⟩ := left m alive
  obtain ⟨x, e, found, same⟩ := inv.metas.listed m before
  exact apart (x, e) (Std.ExtTreeMap.mem_toList_iff_getElem?_eq_some.mpr found) same

theorem Core.passed_of_freed {a : Access} (core : Core c live s) (found : s.history[i]? = some (.access a))
    (freed : a.metaId ∉ s.accHistos) : Passed s.calls i := by
  rcases core.complete i a found with passed | ⟨-, d, waiting⟩
  · exact passed
  · exact absurd (mem_of_lastDyn waiting) freed

theorem Core.summarisedOnce (core : Core c live s) (freed : ∀ m, m ∉ s.accHistos) :
    SummarisedOnce s.history s.calls := by
  refine ⟨fun i a found => ?_, core.calls.placed, core.calls.ordered⟩
  obtain ⟨call, made, place⟩ := core.passed_of_freed found (freed a.metaId)
  obtain ⟨n, stored⟩ := List.getElem?_of_mem made
  refine ⟨n, ⟨call, stored, place⟩, ?_⟩
  rintro k ⟨other, stored', place'⟩
  exact core.calls.unique stored' stored place' place

theorem Core.matured (core : Core c live s) (freed : ∀ m, m ∉ s.accHistos) (complex : c.complexIdioms = true)
    (t : ThreadId) : Matured s.history s.calls t (s.recentInfo t) := by
  have ok := core.recent complex t
  refine ⟨ok.length, fun k e i entry place => ?_⟩
  have exact_ := ok.entries k e i entry place
  obtain ⟨a, found, -⟩ := exact_.access
  obtain ⟨call, made, at_place⟩ := core.passed_of_freed found (freed a.metaId)
  exact ⟨exact_, call.accSum, (exact_.accSum _).mpr ⟨call, made, at_place, rfl⟩⟩

/-- However the accesses, the locks and the frees come, `ProgramExit` leaves no access without its summary. -/
theorem accesses_summarised (reached : Runs.Reach (· = {}) Allows (State.step c) s) :
    (∀ e, Ready c s e → ∃ next, s.step c e = some next) ∧
    (∀ i a, s.history[i]? = some (.access a) → a.metaId ∉ s.accHistos → Passed s.calls i) ∧
    ∃ final, s.programExit c = some final ∧ final.history = s.history ∧ SummarisedOnce s.history final.calls ∧
      (∀ call ∈ final.calls, ∃ a, final.accSums[call.accSum]? = some a ∧ About a call.dynAcc) ∧
      (c.complexIdioms = true → ∀ t, Matured s.history final.calls t (final.recentInfo t)) := by
  have inv := inv_of_reach reached
  refine ⟨fun e ready => ?_, fun i a found freed => inv.core.passed_of_freed found freed, ?_⟩
  · obtain ⟨next, ran, -⟩ := inv.serves ready
    exact ⟨next, ran⟩
  · obtain ⟨final, ran, core, history, freed⟩ := inv.programExit
    refine ⟨final, ran, history, ?_, core.sums.about, fun complex t => ?_⟩
    · rw [← history]
      exact core.summarisedOnce freed
    · rw [← history]
      exact core.matured freed complex t

/-- A configuration for short runs. -/
def plain : Config := ⟨⟨fun _ => 0, fun _ => 0⟩, true, 8⟩

/-- Two threads with a mutex, and a unit that is freed. -/
theorem accesses_summarised_locked : ∃ s : State, s.history.length = 7 ∧
    (∀ e, Ready plain s e → ∃ next, s.step plain e = some next) ∧
    (∀ i a, s.history[i]? = some (.access a) → a.metaId ∉ s.accHistos → Passed s.calls i) ∧
    ∃ final, s.programExit plain = some final ∧ final.history = s.history ∧ SummarisedOnce s.history final.calls ∧
      (∀ call ∈ final.calls, ∃ a, final.accSums[call.accSum]? = some a ∧ About a call.dynAcc) ∧
      (plain.complexIdioms = true → ∀ t, Matured s.history final.calls t (final.recentInfo t)) := by
  have t : (Runs.follow Allows (State.step plain) {} [.sync (.threadStart 0 invalidThdId), .sync (.threadStart 1 0),
      .mutexLock 0 1 4 16, .memWrite 0 2 5 8, .mutexUnlock 0 3 6 16, .memRead 1 1 7 8, .free [8],
      .memWrite 1 2 5 8, .memWrite 1 3 5 16]).any (fun s => s.history.length = 7) = true := by
    decide +kernel
  obtain ⟨s, reached, length⟩ : ∃ s, Runs.Reach (· = ({} : State)) Allows (State.step plain) s ∧ _ :=
    Runs.Reach.of_follow (by rfl) _ t
  exact ⟨s, of_decide_eq_true length, accesses_summarised reached⟩

/-- A thread accesses one unit, and then another one twice. -/
theorem summaries_out_of_order : ∃ s final : State, [Event.sync (.threadStart 1 invalidThdId), .memRead 1 1 4 0,
      .memRead 1 2 4 8, .memRead 1 3 4 8].foldlM (State.step plain) {} = some s ∧
    s.programExit plain = some final ∧
    final.calls.map (fun call => (call.dynAcc.thdId, call.place)) = [(1, some 1), (1, some 0), (1, some 2)] := by
  have t : (([Event.sync (.threadStart 1 invalidThdId), .memRead 1 1 4 0, .memRead 1 2 4 8,
      .memRead 1 3 4 8].foldlM (State.step plain) {}).any fun s => (s.programExit plain).any fun final =>
        final.calls.map (fun call => (call.dynAcc.thdId, call.place)) = [(1, some 1), (1, some 0), (1, some 2)]) = true := by
    decide +kernel
  obtain ⟨s, ran, ended⟩ := (Option.any_eq_true _ _).mp t
  obtain ⟨final, ended, places⟩ := (Option.any_eq_true _ _).mp ended
  exact ⟨s, final, ran, ended, of_decide_eq_true places⟩

end State
end Maple.Idiom.Predictor
