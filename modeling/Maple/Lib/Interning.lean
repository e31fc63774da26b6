import Mathlib

/-! Tables that give each key one identifier. An entry is found by its identifier or,
through a hash index, by its key; new entries get the next identifier, which is a
machine word and wraps around. A reloaded table continues from its largest identifier. -/
namespace Interning
variable {w m : ℕ} {V K : Type}

structure Table (w m : ℕ) (V : Type) where
  curr : BitVec w := 0
  byId : Std.ExtTreeMap (BitVec w) V := ∅
  index : Std.ExtTreeMap (BitVec m) (List V) := ∅

namespace Table

def bucket (t : Table w m V) (h : BitVec m) : List V := t.index[h]?.getD []

def find (t : Table w m V) (h : BitVec m) (isMatch : V → Bool) : Option V := (t.bucket h).find? isMatch

/-- Enter a value under its identifier and its hash. -/
def add (t : Table w m V) (i : BitVec w) (h : BitVec m) (v : V) : Table w m V :=
  { t with byId := t.byId.insert i v, index := t.index.insert h (t.bucket h ++ [v]) }

/-- Enter a value that already has an identifier. -/
def load (t : Table w m V) (i : BitVec w) (h : BitVec m) (v : V) : Table w m V :=
  { t.add i h v with curr := if t.curr < i then i else t.curr }

/-- Enter values that already have identifiers, one after another. -/
def loadAll (ident : V → BitVec w) (hash : V → BitVec m) (vs : List V) : Table w m V :=
  vs.foldl (fun t v => t.load (ident v) (hash v) v) {}

/-- Enter a value under the next identifier. -/
def create (t : Table w m V) (h : BitVec m) (make : BitVec w → V) : Table w m V × V :=
  ({ t.add (t.curr + 1) h (make (t.curr + 1)) with curr := t.curr + 1 }, make (t.curr + 1))

def get (t : Table w m V) (h : BitVec m) (isMatch : V → Bool) (make : BitVec w → V) : Table w m V × V :=
  match t.find h isMatch with
  | some v => (t, v)
  | none => t.create h make

/-- Entries know their identifier, the index has each entry under its hash, and no
two entries have one key. -/
structure Sound (ident : V → BitVec w) (key : V → K) (hash : K → BitVec m) (t : Table w m V) : Prop where
  ids : ∀ (i : BitVec w) v, t.byId[i]? = some v → ident v = i
  index : ∀ h v, v ∈ t.bucket h ↔ hash (key v) = h ∧ t.byId[ident v]? = some v
  keys : ∀ (i j : BitVec w) u v, t.byId[i]? = some u → t.byId[j]? = some v → key u = key v → i = j

/-- The identifiers in use are those up to the last one given, unless all are. -/
def Dense (t : Table w m V) : Prop :=
  (∀ i, i ∈ t.byId ↔ i ≠ 0 ∧ i ≤ t.curr) ∨ ∀ i, i ∈ t.byId

/-- The largest identifier in use, or zero. -/
structure Topped (t : Table w m V) : Prop where
  above : ∀ i ∈ t.byId, i ≤ t.curr
  used : t.curr = 0 ∨ t.curr ∈ t.byId

variable {t : Table w m V} {ident : V → BitVec w} {key : V → K} {hash : K → BitVec m} {i : BitVec w} {h : BitVec m}
  {k : K} {v : V}

theorem getElem?_add (t : Table w m V) (i j : BitVec w) (h : BitVec m) (v : V) :
    (t.add i h v).byId[j]? = if i = j then some v else t.byId[j]? := by
  simp [add, Std.ExtTreeMap.getElem?_insert]

theorem mem_add {j : BitVec w} : j ∈ (t.add i h v).byId ↔ i = j ∨ j ∈ t.byId := by
  simp [add, Std.ExtTreeMap.mem_insert]

theorem mem_bucket_add {g : BitVec m} {u : V} :
    u ∈ (t.add i h v).bucket g ↔ u ∈ t.bucket g ∨ h = g ∧ u = v := by
  simp only [add, bucket, Std.ExtTreeMap.getElem?_insert, Std.compare_eq_iff_eq]
  split
  · next same => simp [same]
  · next other => simp [other]

theorem Sound.empty : Sound ident key hash ({} : Table w m V) where
  ids i v found := by simp at found
  index h v := by simp [bucket]
  keys i j u v found := by simp at found

theorem Dense.empty : ({} : Table w m V).Dense := by
  left
  intro i
  simp only [Std.ExtTreeMap.not_mem_empty, false_iff, not_and]
  exact fun used below => used (BitVec.le_zero_iff.mp below)

theorem Topped.empty : ({} : Table w m V).Topped := ⟨by simp, Or.inl rfl⟩

/-- A new identifier with a new key. -/
theorem Sound.add (sound : Sound ident key hash t) (fresh : ident v ∉ t.byId)
    (new : ∀ (j : BitVec w) u, t.byId[j]? = some u → key u ≠ key v) :
    Sound ident key hash (t.add (ident v) (hash (key v)) v) := by
  have unused : t.byId[ident v]? = none := Std.ExtTreeMap.getElem?_eq_none fresh
  refine ⟨fun j u found => ?_, fun g u => ?_, fun j l u u' found found' same => ?_⟩
  · rw [getElem?_add] at found
    split at found
    · next own => rw [← own, Option.some.inj found]
    · exact sound.ids j u found
  · rw [mem_bucket_add, getElem?_add, sound.index]
    constructor
    · rintro (⟨hashed, found⟩ | ⟨rfl, rfl⟩)
      · refine ⟨hashed, ?_⟩
        rw [if_neg fun same => by simp [same, found] at unused]
        exact found
      · exact ⟨rfl, if_pos rfl⟩
    · rintro ⟨hashed, found⟩
      split at found
      · exact Or.inr ⟨by rw [← hashed, Option.some.inj found], (Option.some.inj found).symm⟩
      · exact Or.inl ⟨hashed, found⟩
  · rw [getElem?_add] at found found'
    split at found
    · next own =>
        cases Option.some.inj found
        split at found'
        · next own' => exact own.symm.trans own'
        · exact absurd same.symm (new l u' found')
    · split at found'
      · cases Option.some.inj found'
        exact absurd same (new j u found)
      · exact sound.keys j l u u' found found' same

theorem Sound.setCurr (sound : Sound ident key hash t) (i : BitVec w) :
    Sound ident key hash { t with curr := i } :=
  ⟨sound.ids, sound.index, sound.keys⟩

/-- The identifiers of all entries, as they are listed. -/
theorem Sound.nodup_ids (sound : Sound ident key hash t) :
    (t.byId.toList.map fun entry => ident entry.2).Nodup := by
  have same : t.byId.toList.map (fun entry => ident entry.2) = t.byId.toList.map Prod.fst := by
    apply List.map_congr_left
    rintro ⟨i, v⟩ member
    exact sound.ids i v (Std.ExtTreeMap.mem_toList_iff_getElem?_eq_some.mp member)
  rw [same, Std.ExtTreeMap.map_fst_toList_eq_keys]
  exact Std.ExtTreeMap.nodup_keys

/-- The search in the index is the search for the key. -/
theorem Sound.find_iff (sound : Sound ident key hash t) {isMatch : V → Bool}
    (matching : ∀ u, isMatch u = true ↔ key u = k) :
    t.find (hash k) isMatch = some v ↔ t.byId[ident v]? = some v ∧ key v = k := by
  constructor
  · intro found
    have same := (matching v).mp (List.find?_some found)
    exact ⟨((sound.index _ v).mp (List.mem_of_find?_eq_some found)).2, same⟩
  · rintro ⟨stored, rfl⟩
    have inside : v ∈ t.bucket (hash (key v)) := (sound.index _ v).mpr ⟨rfl, stored⟩
    cases found : t.find (hash (key v)) isMatch with
    | none => exact absurd ((matching v).mpr rfl) (List.find?_eq_none.mp found v inside)
    | some u =>
      have same := (matching u).mp (List.find?_some found)
      have stored' := ((sound.index _ u).mp (List.mem_of_find?_eq_some found)).2
      have ids := sound.keys _ _ u v stored' stored same
      rw [ids] at stored'
      exact stored'.symm.trans stored

theorem Sound.find_none (sound : Sound ident key hash t) {isMatch : V → Bool}
    (matching : ∀ u, isMatch u = true ↔ key u = k) (missing : t.find (hash k) isMatch = none)
    (j : BitVec w) (u : V) (found : t.byId[j]? = some u) : key u ≠ k := by
  intro same
  have own := sound.ids j u found
  have searched := (sound.find_iff matching).mpr ⟨own.symm ▸ found, same⟩
  exact nomatch missing.symm.trans searched

/-- The word after the largest one in use is not in use. -/
theorem not_mem_next {x : BitVec w} {P : BitVec w → Prop} (counted : ∀ i, P i ↔ i ≠ 0 ∧ i ≤ x) :
    ¬ P (x + 1) := by
  intro used
  obtain ⟨positive, below⟩ := (counted _).mp used
  have step : (x + 1).toNat = (x.toNat + 1) % 2 ^ w := by
    rw [BitVec.toNat_add]
    simp
  rw [BitVec.le_def, step] at below
  rcases Nat.lt_or_ge (x.toNat + 1) (2 ^ w) with small | large
  · rw [Nat.mod_eq_of_lt small] at below
    omega
  · have last : x.toNat + 1 = 2 ^ w := Nat.le_antisymm x.isLt large
    rw [last, Nat.mod_self] at step
    exact positive (BitVec.eq_of_toNat_eq step)

/-- While a word is free, the next identifier is new and the table stays dense. -/
theorem Dense.next (dense : t.Dense) (room : ∃ i, i ∉ t.byId) (h : BitVec m) (make : BitVec w → V) :
    t.curr + 1 ∉ t.byId ∧ (t.create h make).1.Dense := by
  obtain ⟨free, unused⟩ := room
  have counted := dense.resolve_right fun all => unused (all free)
  have fresh := not_mem_next counted
  refine ⟨fresh, ?_⟩
  have step : (t.curr + 1).toNat = (t.curr.toNat + 1) % 2 ^ w := by
    rw [BitVec.toNat_add]
    simp
  rcases Nat.lt_or_ge (t.curr.toNat + 1) (2 ^ w) with small | large
  · left
    intro i
    rw [Nat.mod_eq_of_lt small] at step
    simp only [create, mem_add, counted, BitVec.le_def, step]
    constructor
    · rintro (rfl | ⟨used, below⟩)
      · refine ⟨fun zero => ?_, step.le⟩
        rw [zero] at step
        simp at step
      · exact ⟨used, Nat.le_succ_of_le below⟩
    · rintro ⟨used, below⟩
      rcases Nat.le_succ_iff.mp below with earlier | last
      · exact Or.inr ⟨used, earlier⟩
      · exact Or.inl (BitVec.eq_of_toNat_eq (step.trans last.symm))
  · right
    intro i
    have last : t.curr.toNat + 1 = 2 ^ w := Nat.le_antisymm t.curr.isLt large
    rw [last, Nat.mod_self] at step
    have wrapped : t.curr + 1 = 0 := BitVec.eq_of_toNat_eq step
    simp only [create, mem_add, counted, wrapped, BitVec.le_def]
    by_cases zero : i = 0
    · exact Or.inl zero.symm
    · have bound := i.isLt
      exact Or.inr ⟨zero, by omega⟩

/-- Fewer keys than words leave a word free for a new key. -/
theorem exists_room [DecidableEq K] (key : V → K) {keys : Finset K}
    (distinct : ∀ (i j : BitVec w) u v, t.byId[i]? = some u → t.byId[j]? = some v → key u = key v → i = j)
    (known : ∀ (i : BitVec w) v, t.byId[i]? = some v → key v ∈ keys) (member : k ∈ keys)
    (new : ∀ (i : BitVec w) v, t.byId[i]? = some v → key v ≠ k) (few : keys.card ≤ 2 ^ w) :
    ∃ i, i ∉ t.byId := by
  by_contra! full
  have stored : ∀ i : Fin (2 ^ w), ∃ v, t.byId[BitVec.ofFin i]? = some v := fun i =>
    ⟨_, Std.ExtTreeMap.getElem?_eq_some_getElem (full (BitVec.ofFin i))⟩
  choose value found using stored
  have inside : ∀ i ∈ Finset.univ, key (value i) ∈ keys.erase k := fun i _ =>
    Finset.mem_erase.mpr ⟨new _ _ (found i), known _ _ (found i)⟩
  have injective : Set.InjOn (fun i => key (value i)) (Finset.univ : Finset (Fin (2 ^ w))) := by
    intro i _ j _ same
    have ids := distinct _ _ _ _ (found i) (found j) same
    exact BitVec.ofFin.inj ids
  have counted := Finset.card_le_card_of_injOn _ inside injective
  rw [Finset.card_univ, Fintype.card_fin, Finset.card_erase_of_mem member] at counted
  have positive := Finset.card_pos.mpr ⟨k, member⟩
  omega

/-- What `get` does: the table stays sound and dense, the value has the key, and
other entries are those that were there. -/
structure Got (ident : V → BitVec w) (key : V → K) (hash : K → BitVec m) (t : Table w m V) (k : K)
    (make : BitVec w → V) (result : Table w m V × V) : Prop where
  sound : Sound ident key hash result.1
  dense : result.1.Dense
  key : key result.2 = k
  stored : result.1.byId[ident result.2]? = some result.2
  kept : ∀ (i : BitVec w) v, t.byId[i]? = some v → result.1.byId[i]? = some v
  origin : ∀ (i : BitVec w) v, result.1.byId[i]? = some v → t.byId[i]? = some v ∨ v = result.2
  value : t.byId[ident result.2]? = some result.2 ∨ ∃ i, result.2 = make i

theorem get_spec (sound : Sound ident key hash t) (dense : t.Dense) (isMatch : V → Bool)
    (matching : ∀ u, isMatch u = true ↔ key u = k) (make : BitVec w → V) (own : ∀ i, ident (make i) = i)
    (made : ∀ i, key (make i) = k)
    (room : (∀ (i : BitVec w) v, t.byId[i]? = some v → key v ≠ k) → ∃ i, i ∉ t.byId) :
    Got ident key hash t k make (t.get (hash k) isMatch make) := by
  unfold get
  cases found : t.find (hash k) isMatch with
  | some v =>
    obtain ⟨stored, same⟩ := (sound.find_iff matching).mp found
    exact ⟨sound, dense, same, stored, fun _ _ found => found, fun _ _ found => Or.inl found,
      Or.inl stored⟩
  | none =>
    have new := sound.find_none matching found
    obtain ⟨fresh, dense⟩ := dense.next (room new) (hash k) make
    have added : Sound ident key hash (t.add (t.curr + 1) (hash k) (make (t.curr + 1))) := by
      have entered := sound.add (v := make (t.curr + 1)) (by rwa [own]) (by rwa [made])
      rwa [own, made] at entered
    refine ⟨added.setCurr _, dense, made _, ?_, fun i v stored => ?_, fun i v stored => ?_, Or.inr ⟨_, rfl⟩⟩
    · simp only [create, own, getElem?_add, if_true]
    · have apart : t.curr + 1 ≠ i := by
        rintro rfl
        rw [Std.ExtTreeMap.getElem?_eq_none fresh] at stored
        exact nomatch stored
      simp only [create, getElem?_add, if_neg apart, stored]
    · simp only [create, getElem?_add] at stored ⊢
      split at stored
      · exact Or.inr (Option.some.inj stored).symm
      · exact Or.inl stored

theorem Got.source {make : BitVec w → V} {result : Table w m V × V} (got : Got ident key hash t k make result)
    (found : result.1.byId[i]? = some v) : t.byId[i]? = some v ∨ ∃ j, v = make j := by
  rcases got.origin i v found with before | rfl
  · exact Or.inl before
  · have own := got.sound.ids i _ found
    exact got.value.imp_left fun stored => own ▸ stored

theorem Got.mem_kept {make : BitVec w → V} {result : Table w m V × V} (got : Got ident key hash t k make result)
    (member : i ∈ t.byId) : i ∈ result.1.byId := by
  have found := got.kept i _ (Std.ExtTreeMap.getElem?_eq_some_getElem member)
  exact Std.ExtTreeMap.mem_iff_isSome_getElem?.mpr (by rw [found]; rfl)

theorem Topped.load (topped : t.Topped) (i : BitVec w) (h : BitVec m) (v : V) :
    (t.load i h v).Topped := by
  refine ⟨fun j member => ?_, ?_⟩
  · have member : j ∈ (t.add i h v).byId := member
    rcases mem_add.mp member with rfl | member
    · simp only [Table.load]
      split
      · exact BitVec.le_refl _
      · next above => exact BitVec.not_lt.mp above
    · have before := topped.above j member
      simp only [Table.load]
      split
      · next below => exact BitVec.le_trans before (BitVec.le_of_lt below)
      · exact before
  · simp only [Table.load]
    split
    · exact Or.inr (mem_add.mpr (Or.inl rfl))
    · exact topped.used.imp id fun used => mem_add.mpr (Or.inr used)

theorem getElem?_load (t : Table w m V) (i j : BitVec w) (h : BitVec m) (v : V) :
    (t.load i h v).byId[j]? = if i = j then some v else t.byId[j]? :=
  getElem?_add t i j h v

theorem loadAll_append_singleton (ident : V → BitVec w) (hash : V → BitVec m) (vs : List V) (v : V) :
    loadAll ident hash (vs ++ [v]) = (loadAll ident hash vs).load (ident v) (hash v) v := by
  simp [loadAll]

/-- Two tables with one history, each with hashes of its own. Entries with one key
share a bucket, in the order in which they were entered. -/
structure Alike [DecidableEq K] (key : V → K) (hash hash' : K → BitVec m) (t t' : Table w m V) : Prop where
  curr : t.curr = t'.curr
  byId : t.byId = t'.byId
  entries : ∀ k, (t.bucket (hash k)).filter (key · = k) = (t'.bucket (hash' k)).filter (key · = k)

section Alike
variable [DecidableEq K] {hash' : K → BitVec m} {t' : Table w m V}

theorem Alike.empty : Alike key hash hash' ({} : Table w m V) {} := ⟨rfl, rfl, fun _ => by simp [bucket]⟩

theorem filter_bucket_add (t : Table w m V) (i : BitVec w) (v : V) (k : K) :
    ((t.add i (hash (key v)) v).bucket (hash k)).filter (key · = k) =
      (t.bucket (hash k)).filter (key · = k) ++ if key v = k then [v] else [] := by
  simp only [bucket, add, Std.ExtTreeMap.getElem?_insert, Std.compare_eq_iff_eq]
  by_cases same : key v = k
  · simp [same]
  · by_cases collide : hash (key v) = hash k
    · simp [same, collide]
    · simp [same, collide]

theorem Alike.add (alike : Alike key hash hash' t t') (i : BitVec w) (v : V) :
    Alike key hash hash' (t.add i (hash (key v)) v) (t'.add i (hash' (key v)) v) where
  curr := alike.curr
  byId := by rw [Table.add, Table.add, alike.byId]
  entries k := by rw [filter_bucket_add, filter_bucket_add, alike.entries]

theorem Alike.setCurr (alike : Alike key hash hash' t t') (i : BitVec w) :
    Alike key hash hash' { t with curr := i } { t' with curr := i } :=
  ⟨rfl, alike.byId, alike.entries⟩

theorem Alike.load (alike : Alike key hash hash' t t') (i : BitVec w) (v : V) :
    Alike key hash hash' (t.load i (hash (key v)) v) (t'.load i (hash' (key v)) v) := by
  rw [Table.load, Table.load, alike.curr]
  exact (alike.add i v).setCurr _

theorem alike_loadAll (ident : V → BitVec w) (vs : List V) :
    Alike key hash hash' (loadAll ident (fun v => hash (key v)) vs)
      (loadAll ident (fun v => hash' (key v)) vs) := by
  induction vs using List.reverseRecOn with
  | nil => exact .empty
  | append_singleton vs v ih =>
    rw [loadAll_append_singleton, loadAll_append_singleton]
    exact ih.load _ v

theorem Alike.find (alike : Alike key hash hash' t t') (k : K) :
    t.find (hash k) (key · = k) = t'.find (hash' k) (key · = k) := by
  rw [Table.find, Table.find, ← List.head?_filter, ← List.head?_filter, alike.entries]

theorem Alike.create (alike : Alike key hash hash' t t') {make : BitVec w → V} (made : ∀ i, key (make i) = k) :
    Alike key hash hash' (t.create (hash k) make).1 (t'.create (hash' k) make).1 ∧
      (t.create (hash k) make).2 = (t'.create (hash' k) make).2 := by
  have added := (alike.add (t.curr + 1) (make (t.curr + 1))).setCurr (t.curr + 1)
  rw [made] at added
  refine ⟨?_, ?_⟩
  · simpa only [Table.create, ← alike.curr] using added
  · rw [Table.create, Table.create, alike.curr]

end Alike

theorem entries_loadAll {ident : V → BitVec w} (hash : V → BitVec m) {vs : List V} (ids : (vs.map ident).Nodup)
    (i : BitVec w) (v : V) : (loadAll ident hash vs).byId[i]? = some v ↔ v ∈ vs ∧ ident v = i := by
  induction vs using List.reverseRecOn generalizing v with
  | nil => simp [loadAll]
  | append_singleton vs last ih =>
    rw [List.map_append, List.map_singleton, List.nodup_append] at ids
    obtain ⟨distinct, -, apart⟩ := ids
    rw [loadAll_append_singleton, getElem?_load, List.mem_append, List.mem_singleton]
    split
    · next own =>
        rw [Option.some.injEq]
        constructor
        · rintro rfl
          exact ⟨Or.inr rfl, own⟩
        · rintro ⟨listed | rfl, same⟩
          · exact absurd (same.trans own.symm) (apart _ (List.mem_map_of_mem listed) _ (List.mem_singleton_self _))
          · rfl
    · next other =>
        rw [ih distinct]
        constructor
        · exact fun ⟨listed, same⟩ => ⟨Or.inl listed, same⟩
        · rintro ⟨listed | rfl, same⟩
          · exact ⟨listed, same⟩
          · exact absurd same other

/-- A table of listed values. -/
structure Loaded (ident : V → BitVec w) (key : V → K) (hash : K → BitVec m) (vs : List V) (t : Table w m V) :
    Prop where
  sound : Sound ident key hash t
  topped : t.Topped
  entries : ∀ (i : BitVec w) v, t.byId[i]? = some v ↔ v ∈ vs ∧ ident v = i

theorem loaded_loadAll (hash : K → BitVec m) {vs : List V} (ids : (vs.map ident).Nodup)
    (keys : ∀ u ∈ vs, ∀ v ∈ vs, key u = key v → ident u = ident v) :
    Loaded ident key hash vs (loadAll ident (fun v => hash (key v)) vs) := by
  induction vs using List.reverseRecOn with
  | nil => exact ⟨.empty, .empty, entries_loadAll _ ids⟩
  | append_singleton vs v ih =>
    have entries := entries_loadAll (fun v => hash (key v)) ids
    rw [List.map_append, List.map_singleton, List.nodup_append] at ids
    obtain ⟨distinct, -, apart⟩ := ids
    have before := ih distinct fun u member u' member' =>
      keys u (List.mem_append_left _ member) u' (List.mem_append_left _ member')
    have other : ∀ u ∈ vs, ident u ≠ ident v := fun u member =>
      apart _ (List.mem_map_of_mem member) _ (List.mem_singleton_self _)
    rw [loadAll_append_singleton] at entries ⊢
    refine ⟨(before.sound.add ?_ fun j u found same => ?_).setCurr _, before.topped.load _ _ _, entries⟩
    · intro member
      obtain ⟨listed, own⟩ := (before.entries _ _).mp (Std.ExtTreeMap.getElem?_eq_some_getElem member)
      exact other _ listed own
    · obtain ⟨listed, -⟩ := (before.entries _ _).mp found
      exact other u listed (keys u (List.mem_append_left _ listed) v (by simp) same)

/-- The values of a table, listed in any order, load into a table with its entries. -/
theorem Sound.loadAll {old : Table w m V} (sound : Sound ident key hash old) {vs : List V}
    (listed : vs.Perm (old.byId.toList.map Prod.snd)) :
    Loaded ident key hash vs (loadAll ident (fun v => hash (key v)) vs) ∧
      ∀ i : BitVec w, (Table.loadAll ident (fun v => hash (key v)) vs).byId[i]? = old.byId[i]? := by
  have stored : ∀ v, v ∈ vs ↔ old.byId[ident v]? = some v := by
    intro v
    rw [listed.mem_iff, List.mem_map]
    constructor
    · rintro ⟨⟨i, v⟩, member, rfl⟩
      have found := Std.ExtTreeMap.mem_toList_iff_getElem?_eq_some.mp member
      rwa [sound.ids i v found]
    · intro found
      exact ⟨(ident v, v), Std.ExtTreeMap.mem_toList_iff_getElem?_eq_some.mpr found, rfl⟩
  have ids : (vs.map ident).Nodup := by
    apply (listed.map ident).nodup_iff.mpr
    rw [List.map_map]
    exact sound.nodup_ids
  have loaded := loaded_loadAll hash ids fun u member v member' =>
    sound.keys _ _ u v ((stored u).mp member) ((stored v).mp member')
  refine ⟨loaded, fun i => Option.ext fun v => ?_⟩
  rw [loaded.entries, stored]
  constructor
  · rintro ⟨found, rfl⟩
    exact found
  · intro found
    have own := sound.ids i v found
    exact ⟨own.symm ▸ found, own⟩

/-- A reloaded table with the identifiers of a dense one is dense. -/
theorem Topped.dense (topped : t.Topped) {old : Table w m V} (dense : old.Dense)
    (same : ∀ i, i ∈ t.byId ↔ i ∈ old.byId) : t.Dense := by
  rcases dense with counted | all
  · left
    intro i
    rw [same, counted]
    refine and_congr_right fun used => ⟨fun below => ?_, fun below => ?_⟩
    · exact topped.above i ((same i).mpr ((counted i).mpr ⟨used, below⟩))
    · rcases topped.used with zero | last
      · rw [zero] at below
        exact absurd (BitVec.le_zero_iff.mp below) used
      · exact BitVec.le_trans below ((counted _).mp ((same _).mp last)).2
  · exact Or.inr fun i => (same i).mpr (all i)

end Table
end Interning
