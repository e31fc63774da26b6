import Maple.Systematic.Search

/-! What the nodes of the search stack hold, and that saving and loading them changes
nothing. -/
namespace Maple.Systematic

variable {r : Registry} {state state' : State} {a : Action} {t : Thread} {node : SearchNode}

namespace SearchInfo

theorem getElem?_newNode (distinct : state.Distinct) (t : Thread) :
    (newNode state).enabled[t]? = (state.findEnabled t).map ActionInfo.ofAction := by
  exact (getElem?_foldl_insert Action.thd ActionInfo.ofAction state.enabled distinct ∅ t).trans (by simp [State.findEnabled])

theorem size_foldl_actions (actions : List Action) (distinct : (actions.map (·.thd)).Nodup)
    (map : OrdMap Thread ActionInfo) (fresh : ∀ a ∈ actions, a.thd ∉ map) :
    (actions.foldl (fun map a => map.insert a.thd (ActionInfo.ofAction a)) map).size = map.size + actions.length := by
  induction actions generalizing map with
  | nil => simp
  | cons a rest ih =>
    obtain ⟨apart, distinct⟩ := List.nodup_cons.mp distinct
    obtain ⟨here, later⟩ := List.forall_mem_cons.mp fresh
    rw [List.foldl_cons, ih distinct, Std.ExtTreeMap.size_insert, List.length_cons]
    · split
      · next inside => exact absurd (Std.ExtTreeMap.mem_iff_contains.mpr inside) here
      · omega
    · intro b member
      have other : a.thd ≠ b.thd := fun equal => apart (List.mem_map.mpr ⟨b, member, equal.symm⟩)
      simp [Std.ExtTreeMap.mem_insert, other, later b member]

/-- States whose actions agree in what is compared. -/
def Agree (state state' : State) : Prop :=
  (state.enabled.map ActionInfo.ofAction).Perm (state'.enabled.map ActionInfo.ofAction)

theorem Agree.threads (agree : Agree state state') :
    (state.enabled.map (·.thd)).Perm (state'.enabled.map (·.thd)) := by
  simpa [Function.comp_def, ActionInfo.ofAction] using agree.map ActionInfo.thd

theorem Agree.find (agree : Agree state state') (distinct : state.Distinct) (t : Thread) :
    (state.findEnabled t).map ActionInfo.ofAction = (state'.findEnabled t).map ActionInfo.ofAction := by
  have distinct' : state'.Distinct := agree.threads.nodup_iff.mp distinct
  have half {s s' : State} (agree : Agree s s') (distinct : s.Distinct) (distinct' : s'.Distinct) {info : ActionInfo}
      (found : (s.findEnabled t).map ActionInfo.ofAction = some info) :
      (s'.findEnabled t).map ActionInfo.ofAction = some info := by
    obtain ⟨a, here, rfl⟩ := Option.map_eq_some_iff.mp found
    obtain ⟨member, rfl⟩ := distinct.findEnabled_iff.mp here
    obtain ⟨b, other, same⟩ := List.mem_map.mp (agree.subset (List.mem_map_of_mem member))
    have thread : b.thd = a.thd := congrArg ActionInfo.thd same
    rw [distinct'.findEnabled_iff.mpr ⟨other, thread⟩, Option.map_some, same]
  apply Option.ext
  intro info
  exact ⟨half agree distinct distinct', half agree.symm distinct' distinct⟩

theorem newNode_congr (agree : Agree state state') (distinct : state.Distinct) : newNode state = newNode state' := by
  have distinct' : state'.Distinct := agree.threads.nodup_iff.mp distinct
  have same : (newNode state).enabled = (newNode state').enabled := by
    apply Std.ExtTreeMap.ext_getElem?
    intro t
    rw [getElem?_newNode distinct, getElem?_newNode distinct', agree.find distinct]
  calc newNode state = { enabled := (newNode state).enabled } := rfl
    _ = newNode state' := by rw [same]; rfl

/-- The same state again is no divergence. -/
theorem checkDivergence_newNode (agree : Agree state state') (distinct : state.Distinct)
    (enabled : node.enabled = (newNode state).enabled) : checkDivergence node state' = true := by
  have distinct' : state'.Distinct := agree.threads.nodup_iff.mp distinct
  rw [newNode_congr agree distinct] at enabled
  simp only [checkDivergence, Bool.and_eq_true, decide_eq_true_eq, List.all_eq_true]
  refine ⟨?_, ?_⟩
  · rw [enabled]
    simpa [newNode] using size_foldl_actions state'.enabled distinct' ∅ (by simp)
  · rintro ⟨thd, info⟩ listed
    have found := Std.ExtTreeMap.mem_toList_iff_getElem?_eq_some.mp listed
    rw [enabled, getElem?_newNode distinct'] at found
    obtain ⟨action, here, rfl⟩ := Option.map_eq_some_iff.mp found
    simp [here, ActionInfo.ofAction]

/-- The registry finds what an action names. -/
structure Named (r : Registry) (info : ActionInfo) : Prop where
  thd : r.findThread (r.thd info.thd) = some info.thd
  obj : ∀ o ∈ info.obj, r.findObject (r.obj o) = some o
  inst : ∀ i ∈ info.inst, r.findInst (r.inst i) = some i

/-- A thread is selected, and the threads of the node have named actions. -/
structure Savable (r : Registry) (node : SearchNode) : Prop where
  sel : ∃ t info, node.sel = some t ∧ node.enabled[t]? = some info
  backtrack : ∀ t ∈ node.backtrack, ∃ info, node.enabled[t]? = some info
  done : ∀ t ∈ node.done, ∃ info, node.enabled[t]? = some info
  named : ∀ (t : Thread) (info : ActionInfo), node.enabled[t]? = some info → info.thd = t ∧ Named r info

theorem mapM_named {A B : Type} {f : A → B} {g : B → Option A} {l : List A} (back : ∀ x ∈ l, g (f x) = some x) :
    (l.map f).mapM g = some l := by
  induction l with
  | nil => rfl
  | cons x rest ih =>
    obtain ⟨here, later⟩ := List.forall_mem_cons.mp back
    simp [here, ih later]

theorem mem_foldl_threads (threads : List Thread) (set : ThreadSet) (t : Thread) :
    t ∈ threads.foldl (fun set thd => set.insert thd) set ↔ t ∈ threads ∨ t ∈ set := by
  induction threads generalizing set with
  | nil => simp
  | cons u rest ih =>
    rw [List.foldl_cons, ih, Std.ExtTreeSet.mem_insert, List.mem_cons, Std.compare_eq_iff_eq]
    grind

theorem foldl_toList_threads (set : ThreadSet) : set.toList.foldl (fun set thd => set.insert thd) ∅ = set := by
  apply Std.ExtTreeSet.ext_mem
  intro t
  rw [mem_foldl_threads]
  simp

theorem foldl_toList_infos (map : OrdMap Thread ActionInfo)
    (keys : ∀ (t : Thread) (info : ActionInfo), map[t]? = some info → info.thd = t) :
    (map.toList.map (·.2)).foldl (fun map info => map.insert info.thd info) ∅ = map := by
  have inserted (entries : List (Thread × ActionInfo)) (start : OrdMap Thread ActionInfo)
      (distinct : (entries.map (·.1)).Nodup) (keys : ∀ entry ∈ entries, entry.2.thd = entry.1) (t : Thread) :
      ((entries.map (·.2)).foldl (fun map info => map.insert info.thd info) start)[t]? =
        ((entries.find? (·.1 = t)).map (·.2)).or start[t]? := by
    induction entries generalizing start with
    | nil => simp
    | cons entry rest ih =>
      obtain ⟨apart, distinct⟩ := List.nodup_cons.mp distinct
      obtain ⟨own, later⟩ := List.forall_mem_cons.mp keys
      rw [List.map_cons, List.foldl_cons, ih _ distinct later, getElem?_insert_thread, own]
      by_cases same : entry.1 = t
      · have absent : rest.find? (·.1 = t) = none := by
          rw [List.find?_eq_none]
          intro other member
          simpa using fun equal => apart (List.mem_map.mpr ⟨other, member, equal.trans same.symm⟩)
        simp [same, absent]
      · simp [same]
  have distinct : (map.toList.map (·.1)).Nodup := by
    rw [Std.ExtTreeMap.map_fst_toList_eq_keys]
    exact Std.ExtTreeMap.nodup_keys
  have listed {t : Thread} {info : ActionInfo} : (t, info) ∈ map.toList ↔ map[t]? = some info :=
    Std.ExtTreeMap.mem_toList_iff_getElem?_eq_some
  apply Std.ExtTreeMap.ext_getElem?
  intro t
  rw [inserted _ _ distinct fun entry member => keys _ _ (listed.mp member)]
  cases found : map[t]? with
  | none =>
    have absent : map.toList.find? (·.1 = t) = none := by
      rw [List.find?_eq_none]
      rintro ⟨u, info⟩ member
      simp only [decide_eq_true_eq]
      rintro rfl
      simp [listed.mp member] at found
    simp [absent]
  | some info =>
    cases first : map.toList.find? (·.1 = t) with
    | none => simpa using List.find?_eq_none.mp first _ (listed.mpr found)
    | some entry =>
      have same : entry.1 = t := by simpa using List.find?_some first
      have stored := listed.mp (List.mem_of_find?_eq_some first)
      rw [same, found] at stored
      simpa using (Option.some.inj stored).symm

theorem loadAction_saveAction {info : ActionInfo} (named : Named r info) :
    loadAction r (saveAction r.toIds info) = some info := by
  have obj : (info.obj.map r.obj).bind r.findObject = info.obj := by
    cases found : info.obj with
    | none => rfl
    | some o => exact named.obj o found
  have inst : (info.inst.map r.inst).bind r.findInst = info.inst := by
    cases found : info.inst with
    | none => rfl
    | some i => exact named.inst i found
  simp [loadAction, saveAction, named.thd, obj, inst]

theorem loadNode_saveNode (savable : Savable r node) :
    ∃ proto, saveNode r.toIds node = some proto ∧ loadNode r proto = some node := by
  obtain ⟨sel, info, selected, found⟩ := savable.sel
  have thread {t : Thread} (known : ∃ info, node.enabled[t]? = some info) : r.findThread (r.thd t) = some t := by
    obtain ⟨info, found⟩ := known
    obtain ⟨rfl, named⟩ := savable.named t info found
    exact named.thd
  have backtrack : (node.backtrack.toList.map r.thd).mapM r.findThread = some node.backtrack.toList :=
    mapM_named fun t member => thread (savable.backtrack t (Std.ExtTreeSet.mem_toList.mp member))
  have done : (node.done.toList.map r.thd).mapM r.findThread = some node.done.toList :=
    mapM_named fun t member => thread (savable.done t (Std.ExtTreeSet.mem_toList.mp member))
  have enabled : (node.enabled.toList.map fun entry => saveAction r.toIds entry.2).mapM (loadAction r) =
      some (node.enabled.toList.map (·.2)) := by
    rw [show (node.enabled.toList.map fun entry => saveAction r.toIds entry.2) =
      (node.enabled.toList.map (·.2)).map (saveAction r.toIds) by simp]
    apply mapM_named
    rintro info member
    obtain ⟨⟨t, _⟩, listed, rfl⟩ := List.mem_map.mp member
    exact loadAction_saveAction (savable.named t _ (Std.ExtTreeMap.mem_toList_iff_getElem?_eq_some.mp listed)).2
  refine ⟨_, by rw [saveNode, selected]; rfl, ?_⟩
  simp only [loadNode, thread ⟨info, found⟩, backtrack, done, enabled, Option.bind_eq_bind, Option.bind_some,
    foldl_toList_threads, foldl_toList_infos _ fun t info found => (savable.named t info found).1]
  rw [← selected]
  rfl

/-- `Load` restores what `Save` has stored; the cursor starts over. -/
theorem load_save {info : SearchInfo} (savable : ∀ node ∈ info.stack, Savable r node) :
    ∃ proto, info.save r.toIds = some proto ∧ load r proto = some { info with cursor := 0 } := by
  suffices stored : ∃ protos, info.stack.mapM (saveNode r.toIds) = some protos ∧
      protos.mapM (loadNode r) = some info.stack by
    obtain ⟨protos, saved, loaded⟩ := stored
    exact ⟨_, by rw [save, saved]; rfl, by rw [load, loaded]; rfl⟩
  generalize info.stack = stack at savable
  induction stack with
  | nil => exact ⟨[], rfl, rfl⟩
  | cons node rest ih =>
    obtain ⟨here, later⟩ := List.forall_mem_cons.mp savable
    obtain ⟨proto, saved, loaded⟩ := loadNode_saveNode here
    obtain ⟨protos, others, restored⟩ := ih later
    exact ⟨proto :: protos, by simp [saved, others], by simp [loaded, restored]⟩

end SearchInfo

end Maple.Systematic
