import Maple.Lib.Interning

/-! Tables that give out their identifiers from one on, until the words run out: the entries are
a list, and an identifier is a position in it. -/
namespace Interning.Table
variable {w m : ℕ} {V K : Type}

/-- The value at a position, counted from one. -/
def nth (vs : List V) (i : BitVec w) : Option V := if i = 0 then none else vs[i.toNat - 1]?

structure Numbered (ident : V → BitVec w) (key : V → K) (hash : K → BitVec m) (vs : List V) (t : Table w m V) :
    Prop where
  room : vs.length < 2 ^ w
  sound : Sound ident key hash t
  curr : t.curr = BitVec.ofNat w vs.length
  entries : ∀ i : BitVec w, t.byId[i]? = nth vs i

variable {t : Table w m V} {ident : V → BitVec w} {key : V → K} {hash : K → BitVec m} {vs : List V} {v : V} {k : K}
  {i : BitVec w}

theorem nth_iff : nth vs i = some v ↔ ∃ n, vs[n]? = some v ∧ i.toNat = n + 1 := by
  unfold nth
  split
  · next zero =>
    subst zero
    simp
  · next positive =>
    have pos : 0 < i.toNat := Nat.pos_of_ne_zero fun zero => positive (BitVec.eq_of_toNat_eq (by simp [zero]))
    constructor
    · intro found
      exact ⟨i.toNat - 1, found, by omega⟩
    · rintro ⟨n, found, number⟩
      rwa [number, Nat.add_sub_cancel]

theorem nth_ofNat {n : ℕ} (small : n + 1 < 2 ^ w) : nth vs (BitVec.ofNat w (n + 1)) = vs[n]? := by
  have number : (BitVec.ofNat w (n + 1)).toNat = n + 1 := Nat.mod_eq_of_lt small
  refine Option.ext fun v => nth_iff.trans ?_
  rw [number]
  constructor
  · rintro ⟨other, found, same⟩
    rwa [Nat.succ_inj.mp same]
  · exact fun found => ⟨n, found, rfl⟩

theorem nth_append {us : List V} (found : nth vs i = some v) : nth (vs ++ us) i = some v := by
  obtain ⟨n, here, number⟩ := nth_iff.mp found
  exact nth_iff.mpr ⟨n, (List.getElem?_append_left (List.getElem?_eq_some_iff.mp here).1).trans here, number⟩

theorem mem_of_nth (found : nth vs i = some v) : v ∈ vs := by
  obtain ⟨n, here, _⟩ := nth_iff.mp found
  exact List.mem_of_getElem? here

/-- The values of a list and their images stand at the same positions. -/
theorem nth_mapIdx {U : Type} (f : ℕ → V → U) :
    nth (vs.mapIdx f) i = (nth vs i).map (f (i.toNat - 1)) := by
  unfold nth
  split
  · rfl
  · rw [List.getElem?_mapIdx]

/-- The last of the values is the one under the last identifier. -/
theorem nth_concat (small : vs.length + 1 < 2 ^ w) :
    nth (vs ++ [v]) i = if BitVec.ofNat w (vs.length + 1) = i then some v else nth vs i := by
  split
  · next own =>
    rw [← own, nth_ofNat small]
    exact List.getElem?_concat_length
  · next other =>
    refine Option.ext fun u => ?_
    rw [nth_iff, nth_iff]
    refine exists_congr fun n => and_congr_left fun number => ?_
    have apart : n ≠ vs.length := by
      rintro rfl
      exact other (BitVec.eq_of_toNat_eq ((Nat.mod_eq_of_lt small).trans number.symm))
    rcases Nat.lt_or_gt_of_ne apart with before | after
    · rw [List.getElem?_append_left before]
    · rw [List.getElem?_eq_none (Nat.le_of_lt after), List.getElem?_eq_none (by simpa using after)]

theorem Numbered.empty : Numbered ident key hash [] ({} : Table w m V) where
  room := Nat.two_pow_pos w
  sound := .empty
  curr := rfl
  entries i := by
    rw [nth]
    split <;> simp

theorem Numbered.ident_getElem? (numbered : Numbered ident key hash vs t) {n : ℕ} (here : vs[n]? = some v) :
    ident v = BitVec.ofNat w (n + 1) := by
  have small : n + 1 < 2 ^ w := Nat.lt_of_le_of_lt (List.getElem?_eq_some_iff.mp here).1 numbered.room
  exact numbered.sound.ids _ v ((numbered.entries _).trans ((nth_ofNat small).trans here))

theorem Numbered.nth_ident (numbered : Numbered ident key hash vs t) (member : v ∈ vs) : nth vs (ident v) = some v := by
  obtain ⟨n, here⟩ := List.mem_iff_getElem?.mp member
  have small : n + 1 < 2 ^ w := Nat.lt_of_le_of_lt (List.getElem?_eq_some_iff.mp here).1 numbered.room
  rw [numbered.ident_getElem? here, nth_ofNat small, here]

/-- A value is found by its key. -/
theorem Numbered.find_of_mem (numbered : Numbered ident key hash vs t) (isMatch : V → Bool)
    (matching : ∀ u, isMatch u = true ↔ key u = k) (member : v ∈ vs) (own : key v = k) :
    t.find (hash k) isMatch = some v :=
  (numbered.sound.find_iff matching).mpr ⟨(numbered.entries _).trans (numbered.nth_ident member), own⟩

/-- A key that no value has is not found. -/
theorem Numbered.find_none (numbered : Numbered ident key hash vs t) (isMatch : V → Bool)
    (matching : ∀ u, isMatch u = true ↔ key u = k) (new : ∀ v ∈ vs, key v ≠ k) : t.find (hash k) isMatch = none := by
  refine Option.eq_none_iff_forall_ne_some.mpr fun v found => ?_
  obtain ⟨stored, own⟩ := (numbered.sound.find_iff matching).mp found
  exact new v (mem_of_nth ((numbered.entries _).symm.trans stored)) own

/-- One more value, under the next identifier. -/
theorem Numbered.add (numbered : Numbered ident key hash vs t) (room : vs.length + 1 < 2 ^ w)
    (own : ident v = BitVec.ofNat w (vs.length + 1)) (new : ∀ u ∈ vs, key u ≠ key v) :
    Numbered ident key hash (vs ++ [v]) { t.add (ident v) (hash (key v)) v with curr := ident v } := by
  have unused : t.byId[ident v]? = none := by
    rw [numbered.entries, own, nth_ofNat room]
    exact List.getElem?_eq_none (Nat.le_refl _)
  have fresh : ident v ∉ t.byId := by
    intro member
    rw [Std.ExtTreeMap.mem_iff_isSome_getElem?, unused] at member
    contradiction
  refine ⟨by rwa [List.length_append, List.length_singleton], ?_, ?_, fun i => ?_⟩
  · refine (numbered.sound.add fresh fun j u found => ?_).setCurr _
    exact new u (mem_of_nth ((numbered.entries j).symm.trans found))
  · rw [List.length_append, List.length_singleton]
    exact own
  · refine (getElem?_add t (ident v) i (hash (key v)) v).trans ?_
    rw [nth_concat room, own, numbered.entries]

theorem Numbered.next (numbered : Numbered ident key hash vs t) : t.curr + 1 = BitVec.ofNat w (vs.length + 1) := by
  rw [numbered.curr, BitVec.ofNat_add]
  rfl

theorem Numbered.create (numbered : Numbered ident key hash vs t) (room : vs.length + 1 < 2 ^ w)
    (make : BitVec w → V) (own : ∀ i, ident (make i) = i) (made : ∀ i, key (make i) = k) (new : ∀ u ∈ vs, key u ≠ k) :
    Numbered ident key hash (vs ++ [make (BitVec.ofNat w (vs.length + 1))]) (t.create (hash k) make).1 := by
  have added := numbered.add room (own (BitVec.ofNat w (vs.length + 1))) (by simpa only [made] using new)
  simp only [own, made] at added
  simpa only [Table.create, numbered.next] using added

/-- Values with their numbers as identifiers, loaded one after another. -/
theorem numbered_loadAll (ident : V → BitVec w) (key : V → K) (hash : K → BitVec m) (vs : List V)
    (room : vs.length < 2 ^ w)
    (ids : ∀ (n : ℕ) v, vs[n]? = some v → ident v = BitVec.ofNat w (n + 1)) (keys : (vs.map key).Nodup) :
    Numbered ident key hash vs (loadAll ident (fun v => hash (key v)) vs) := by
  induction vs using List.reverseRecOn with
  | nil => exact .empty
  | append_singleton vs v ih =>
    rw [List.length_append, List.length_singleton] at room
    rw [List.map_append, List.map_singleton, List.nodup_append] at keys
    obtain ⟨distinct, -, apart⟩ := keys
    have before := ih (Nat.lt_of_succ_lt room) (fun n u here => ids n u
      ((List.getElem?_append_left (List.getElem?_eq_some_iff.mp here).1).trans here)) distinct
    have own := ids vs.length v List.getElem?_concat_length
    have added := before.add room own fun u member => apart _ (List.mem_map_of_mem member) _ (List.mem_singleton_self _)
    have larger : (loadAll ident (fun v => hash (key v)) vs).curr < ident v := by
      rw [before.curr, own, BitVec.lt_def, BitVec.toNat_ofNat, BitVec.toNat_ofNat, Nat.mod_eq_of_lt room,
        Nat.mod_eq_of_lt (Nat.lt_of_succ_lt room)]
      exact Nat.lt_succ_self _
    rw [loadAll_append_singleton, Table.load, if_pos larger]
    exact added

end Interning.Table
