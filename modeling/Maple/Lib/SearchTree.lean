import Mathlib

/-! Order queries of finite ordered maps: the entry at or below a key is the last
such entry in key order. -/
namespace Std.ExtTreeMap
variable {α β : Type} [Ord α] [TransOrd α]

theorem getEntryLE?_eq_findRev? (map : ExtTreeMap α β) (k : α) :
    map.getEntryLE? k = map.toList.findRev? fun entry => (compare entry.1 k).isLE := by
  obtain ⟨⟨map⟩⟩ := map
  induction map using Quotient.ind with | _ map
  change DTreeMap.Internal.Impl.Const.getEntryLE? k map.inner =
    (DTreeMap.Internal.Impl.Const.toList map.inner).findRev? _
  rw [DTreeMap.Internal.Impl.Const.getEntryLE?_eq_map,
    DTreeMap.Internal.Impl.getEntryLE?_eq_findRev? map.wf.ordered,
    DTreeMap.Internal.Impl.Const.toList_eq_toListModel_map]
  simp only [List.findRev?_eq_find?_reverse, ← List.map_reverse, List.find?_map]
  rfl

variable [LawfulEqOrd α] {map : ExtTreeMap α β} {k a : α} {v : β}

/-- With a key at or below `k` there is an entry, and none of those keys is above it. -/
theorem getEntryLE?_greatest (present : map[a]? = some v) (below : (compare a k).isLE = true) :
    ∃ b w, map.getEntryLE? k = some (b, w) ∧ map[b]? = some w ∧ (compare b k).isLE = true ∧
      (compare a b).isLE = true := by
  have member := mem_toList_iff_getElem?_eq_some.mpr present
  cases found : map.getEntryLE? k with
  | none =>
    rw [getEntryLE?_eq_findRev?, List.findRev?_eq_find?_reverse, List.find?_eq_none] at found
    exact absurd below (found (a, v) (List.mem_reverse.mpr member))
  | some entry =>
    rw [getEntryLE?_eq_findRev?, List.findRev?_eq_find?_reverse, List.find?_eq_some_iff_append] at found
    obtain ⟨holds, later, earlier, split, failing⟩ := found
    have split : map.toList = earlier.reverse ++ entry :: later.reverse := by
      simpa using congrArg List.reverse split
    have inside : entry ∈ map.toList := by simp [split]
    refine ⟨entry.1, entry.2, rfl, mem_toList_iff_getElem?_eq_some.mp inside, holds, ?_⟩
    rw [split, List.mem_append, List.mem_cons, List.mem_reverse, List.mem_reverse] at member
    rcases member with before | same | after
    · have ordered := split ▸ ordered_keys_toList (t := map)
      have less := (List.pairwise_append.mp ordered).2.2 _ (List.mem_reverse.mpr before) _ List.mem_cons_self
      have less : compare a entry.1 = .lt := by simpa using less
      simp [less]
    · cases same
      simp [compare_self]
    · exact absurd below (by simpa using failing _ after)

theorem getElem?_of_getEntryLE? {b : α} {w : β} (found : map.getEntryLE? k = some (b, w)) :
    map[b]? = some w := by
  rw [getEntryLE?_eq_findRev?, List.findRev?_eq_find?_reverse] at found
  have member := List.mem_of_find?_eq_some found
  exact mem_toList_iff_getElem?_eq_some.mp (List.mem_reverse.mp member)

end Std.ExtTreeMap
