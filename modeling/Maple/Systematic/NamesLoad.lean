import Maple.Systematic.Names

/-! What the tables of names keep through calls, and through a save and a load in
another order. -/
namespace Maple.Systematic.Names
variable {sinfo : StaticInfo} {p next : Program}

/-- What a uid stands for. -/
def Program.named (p : Program) : Uid → Option Key
  | .thread uid => (p.findThread uid).map fun thd => .thread thd.key
  | .object uid => (p.findObject uid).map fun obj => .object obj.key

/-- Names are never changed. -/
def Program.Kept (p next : Program) : Prop := ∀ uid key, p.named uid = some key → next.named uid = some key

theorem Program.Kept.refl (p : Program) : p.Kept p := fun _ _ => id

theorem Program.Kept.trans {q : Program} (first : p.Kept q) (second : q.Kept next) : p.Kept next :=
  fun uid key named => second uid key (first uid key named)

theorem Program.kept_of_tables
    (threads : ∀ (i : BitVec 32) thd, p.threads.byId[i]? = some thd → next.threads.byId[i]? = some thd)
    (objects : ∀ (i : BitVec 32) obj, p.objects.byId[i]? = some obj → next.objects.byId[i]? = some obj) :
    p.Kept next := by
  intro uid key named
  cases uid with
  | thread uid =>
    obtain ⟨thd, found, same⟩ := Option.map_eq_some_iff.mp named
    exact Option.map_eq_some_iff.mpr ⟨thd, threads uid thd found, same⟩
  | object uid =>
    obtain ⟨obj, found, same⟩ := Option.map_eq_some_iff.mp named
    exact Option.map_eq_some_iff.mpr ⟨obj, objects uid obj found, same⟩

/-- The threads of a program. Creators are threads of the program, and the first
thread is the main thread. -/
structure ThreadsInv (t : Interning.Table 32 64 Thread) : Prop where
  sound : t.Sound Thread.uid Thread.key Thread.hash
  dense : t.Dense
  creators : ∀ (i : BitVec 32) thd creator, t.byId[i]? = some thd → thd.creator = some creator → creator ∈ t.byId
  main : ∀ thd, t.byId[(1 : BitVec 32)]? = some thd → thd.creator = none
  idx : ∀ (i : BitVec 32) thd, t.byId[i]? = some thd → thd.creator = none → thd.creatorIdx = 0

/-- What `Load` asserts of an object. -/
def Object.Known (sinfo : StaticInfo) (threads : Interning.Table 32 64 Thread) : Object → Prop
  | sobject _ imageId _ => sinfo.findImage imageId = true
  | dobject _ creator creatorInst _ _ => creator ∈ threads.byId ∧ sinfo.findInst creatorInst = true

structure Program.Inv (sinfo : StaticInfo) (p : Program) : Prop where
  threads : ThreadsInv p.threads
  objects : p.objects.Sound Object.uid Object.key Object.hash
  objectsDense : p.objects.Dense
  known : ∀ (i : BitVec 32) obj, p.objects.byId[i]? = some obj → obj.Known sinfo p.threads

/-- A program with names for these keys only. -/
structure Program.Among (keys : Finset ThreadKey) (objKeys : Finset ObjectKey) (p : Program) : Prop where
  threads : ∀ (i : BitVec 32) thd, p.threads.byId[i]? = some thd → thd.key ∈ keys
  objects : ∀ (i : BitVec 32) obj, p.objects.byId[i]? = some obj → obj.key ∈ objKeys

theorem Program.inv_empty : ({} : Program).Inv sinfo where
  threads := ⟨.empty, .empty, by simp, by simp, by simp⟩
  objects := .empty
  objectsDense := .empty
  known := by simp

/-- A key has one name. -/
theorem Program.Inv.named_unique (inv : p.Inv sinfo) {uid uid' : Uid} {key : Key} (first : p.named uid = some key)
    (second : p.named uid' = some key) : uid = uid' := by
  match uid, uid' with
  | .thread uid, .thread uid' =>
    obtain ⟨thd, found, rfl⟩ := Option.map_eq_some_iff.mp first
    obtain ⟨thd', found', same⟩ := Option.map_eq_some_iff.mp second
    cases inv.threads.sound.keys uid uid' thd thd' found found' (Key.thread.inj same).symm
    rfl
  | .object uid, .object uid' =>
    obtain ⟨obj, found, rfl⟩ := Option.map_eq_some_iff.mp first
    obtain ⟨obj', found', same⟩ := Option.map_eq_some_iff.mp second
    cases inv.objects.keys uid uid' obj obj' found found' (Key.object.inj same).symm
    rfl
  | .thread uid, .object uid' =>
    obtain ⟨thd, _, rfl⟩ := Option.map_eq_some_iff.mp first
    obtain ⟨obj, _, same⟩ := Option.map_eq_some_iff.mp second
    exact nomatch same
  | .object uid, .thread uid' =>
    obtain ⟨obj, _, rfl⟩ := Option.map_eq_some_iff.mp first
    obtain ⟨thd, _, same⟩ := Option.map_eq_some_iff.mp second
    exact nomatch same

/-- The thread with a key. -/
def Thread.ofKey (key : ThreadKey) (uid : BitVec 32) : Thread :=
  match key with
  | none => { uid := uid }
  | some (creator, creatorIdx) => ⟨uid, some creator, creatorIdx⟩

theorem Thread.key_ofKey (key : ThreadKey) (uid : BitVec 32) : (Thread.ofKey key uid).key = key := by
  cases key <;> rfl

theorem Thread.uid_ofKey (key : ThreadKey) (uid : BitVec 32) : (Thread.ofKey key uid).uid = uid := by
  cases key <;> rfl

/-- A table with a thread has the main thread. -/
theorem main_mem {t : Interning.Table 32 64 Thread} (dense : t.Dense) {i : BitVec 32} (member : i ∈ t.byId) :
    1 ∈ t.byId := by
  rcases dense with counted | all
  · obtain ⟨positive, below⟩ := (counted i).mp member
    apply (counted 1).mpr
    bv_omega
  · exact all 1

/-- `GetThread` and `GetMainThread` look a thread up by its key. -/
def Interned (t : Interning.Table 32 64 Thread) (key : ThreadKey) : Interning.Table 32 64 Thread × Thread :=
  t.get (Thread.hash key) (fun thd => thd.key = key) (Thread.ofKey key)

theorem ThreadsInv.get {t : Interning.Table 32 64 Thread} (inv : ThreadsInv t) {key : ThreadKey}
    (creators : ∀ creator creatorIdx, key = some (creator, creatorIdx) → creator ∈ t.byId)
    (room : (∀ (i : BitVec 32) thd, t.byId[i]? = some thd → thd.key ≠ key) → ∃ i, i ∉ t.byId) :
    t.Got Thread.uid Thread.key Thread.hash key (Thread.ofKey key) (Interned t key) ∧
      ThreadsInv (Interned t key).1 := by
  have got := Interning.Table.get_spec inv.sound inv.dense (fun thd => thd.key = key)
    (fun thd => decide_eq_true_iff) (Thread.ofKey key) (Thread.uid_ofKey key) (Thread.key_ofKey key) room
  refine ⟨got, got.sound, got.dense, fun i thd creator found created => ?_, fun thd found => ?_,
    fun i thd found main => ?_⟩
  · apply got.mem_kept
    rcases got.source found with before | ⟨j, rfl⟩
    · exact inv.creators i thd creator before created
    · match key with
      | none => exact nomatch created
      | some (creator', creatorIdx) =>
        cases created
        exact creators _ _ rfl
  · rcases got.source found with before | ⟨j, rfl⟩
    · exact inv.main thd before
    · match key with
      | none => rfl
      | some (creator, creatorIdx) =>
        -- The creator is there, and so is the main thread.
        have stored := Std.ExtTreeMap.getElem?_eq_some_getElem (main_mem inv.dense (creators _ _ rfl))
        have same := Option.some.inj ((got.kept _ _ stored).symm.trans found)
        exact nomatch same ▸ inv.main _ stored
  · rcases got.source found with before | ⟨j, rfl⟩
    · exact inv.idx i thd before main
    · match key with
      | none => rfl
      | some (creator, creatorIdx) => exact nomatch main

theorem Program.Inv.getMainThread_eq (inv : p.Inv sinfo) :
    p.getMainThread = some ({ p with threads := (Interned p.threads none).1 }, (Interned p.threads none).2) := by
  unfold Program.getMainThread
  cases found : p.findThread 1 with
  | some thd =>
    have main : thd.key = none := by rw [Thread.key, inv.threads.main thd found, Option.map_none]
    have own := inv.threads.sound.ids 1 thd found
    have searched : p.threads.find (Thread.hash none) (fun thd => thd.key = none) = some thd :=
      (inv.threads.sound.find_iff fun thd => decide_eq_true_iff).mpr ⟨own.symm ▸ found, main⟩
    simp only [Interned, Interning.Table.get, searched]
  | none =>
    have absent : (1 : BitVec 32) ∉ p.threads.byId := by
      intro member
      exact nomatch found.symm.trans (Std.ExtTreeMap.getElem?_eq_some_getElem member)
    have empty : ∀ i, i ∉ p.threads.byId := fun i member => absent (main_mem inv.threads.dense member)
    have start : p.threads.curr = 0 := by
      have counted := inv.threads.dense.resolve_right fun all => absent (all 1)
      by_contra positive
      exact empty _ ((counted _).mpr ⟨positive, BitVec.le_refl _⟩)
    have missing : p.threads.find (Thread.hash none) (fun thd => thd.key = none) = none := by
      apply List.find?_eq_none.mpr
      intro thd member
      obtain ⟨-, stored⟩ := (inv.threads.sound.index _ thd).mp member
      exact absurd (Std.ExtTreeMap.mem_iff_isSome_getElem?.mpr (by rw [stored]; rfl)) (empty _)
    simp only [debugAssert_pos start, Interned, Interning.Table.get, missing]
    rfl

variable {keys : Finset ThreadKey} {objKeys : Finset ObjectKey}

/-- What a call does. -/
structure Called (sinfo : StaticInfo) (keys : Finset ThreadKey) (objKeys : Finset ObjectKey) (p : Program)
    (key : Key) (next : Program) (uid : Uid) : Prop where
  inv : next.Inv sinfo
  among : next.Among keys objKeys
  kept : p.Kept next
  named : next.named uid = some key

theorem Object.Known.mono {t t' : Interning.Table 32 64 Thread} {obj : Object} (known : obj.Known sinfo t)
    (kept : ∀ i ∈ t.byId, i ∈ t'.byId) : obj.Known sinfo t' := by
  cases obj with
  | sobject uid imageId offset => exact known
  | dobject uid creator creatorInst creatorIdx offset => exact ⟨kept creator known.1, known.2⟩

theorem Program.Inv.call_thread (inv : p.Inv sinfo) (among : p.Among keys objKeys) {key : ThreadKey}
    (creators : ∀ creator creatorIdx, key = some (creator, creatorIdx) → creator ∈ p.threads.byId)
    (member : key ∈ keys) (few : keys.card ≤ 2 ^ 32) :
    Called sinfo keys objKeys p (.thread key) { p with threads := (Interned p.threads key).1 }
      (.thread (Interned p.threads key).2.uid) := by
  obtain ⟨got, threads⟩ := inv.threads.get creators fun new =>
    Interning.Table.exists_room Thread.key inv.threads.sound.keys among.threads member new few
  refine ⟨⟨threads, inv.objects, inv.objectsDense, fun i obj found => ?_⟩, ⟨fun i thd found => ?_, among.objects⟩,
    Program.kept_of_tables got.kept fun _ _ => id, ?_⟩
  · exact (inv.known i obj found).mono fun i => got.mem_kept
  · rcases got.source found with before | ⟨j, rfl⟩
    · exact among.threads i thd before
    · rwa [Thread.key_ofKey]
  · exact Option.map_eq_some_iff.mpr ⟨_, got.stored, congrArg Key.thread got.key⟩

theorem Program.Inv.call_object (inv : p.Inv sinfo) (among : p.Among keys objKeys) {key : ObjectKey}
    (make : BitVec 32 → Object) (own : ∀ uid, (make uid).uid = uid) (made : ∀ uid, (make uid).key = key)
    (known : ∀ uid, (make uid).Known sinfo p.threads) (member : key ∈ objKeys) (few : objKeys.card ≤ 2 ^ 32) :
    let got := p.objects.get (Object.hash key) (fun obj => obj.key = key) make
    Called sinfo keys objKeys p (.object key) { p with objects := got.1 } (.object got.2.uid) := by
  have got := Interning.Table.get_spec inv.objects inv.objectsDense (fun obj => obj.key = key)
    (fun obj => decide_eq_true_iff) make own made fun new =>
      Interning.Table.exists_room Object.key inv.objects.keys among.objects member new few
  refine ⟨⟨inv.threads, got.sound, got.dense, fun i obj found => ?_⟩, ⟨among.threads, fun i obj found => ?_⟩,
    Program.kept_of_tables (fun _ _ => id) got.kept, ?_⟩
  · rcases got.source found with before | ⟨j, rfl⟩
    · exact inv.known i obj before
    · exact known j
  · rcases got.source found with before | ⟨j, rfl⟩
    · exact among.objects i obj before
    · rwa [made]
  · exact Option.map_eq_some_iff.mpr ⟨_, got.stored, congrArg Key.object got.key⟩

section Load

/-- The thread that a message is about. -/
def ThreadProto.decode (q : ThreadProto) : Thread :=
  ⟨q.uid, q.creatorUid, if q.creatorUid.isSome then q.creatorIdx else 0⟩

def SObjectProto.decode (q : SObjectProto) : Object := .sobject q.uid q.imageId q.offset

def DObjectProto.decode (q : DObjectProto) : Object :=
  .dobject q.uid q.creatorUid q.creatorInstId q.creatorIdx q.offset

theorem Thread.decode_toProto {thd : Thread} (idx : thd.creator = none → thd.creatorIdx = 0) :
    thd.toProto.decode = thd := by
  obtain ⟨uid, creator, creatorIdx⟩ := thd
  cases creator with
  | none =>
    have first : creatorIdx = 0 := idx rfl
    rw [first]
    rfl
  | some creator => rfl

/-- Static objects and then dynamic objects are all objects. -/
theorem decode_objects (objs : List Object) :
    ((objs.filterMap Object.toSObjectProto).map SObjectProto.decode ++
      (objs.filterMap Object.toDObjectProto).map DObjectProto.decode).Perm objs := by
  induction objs with
  | nil => exact .nil
  | cons obj objs ih =>
    cases obj with
    | sobject uid imageId offset => exact ih.cons _
    | dobject uid creator creatorInst creatorIdx offset => exact List.perm_middle.trans (ih.cons _)

def loadedThreads (ps : List ThreadProto) : Interning.Table 32 64 Thread :=
  .loadAll Thread.uid (fun thd => Thread.hash thd.key) (ps.map ThreadProto.decode)

theorem map_uid_decode (ps : List ThreadProto) : (ps.map ThreadProto.decode).map Thread.uid = ps.map (·.uid) := by
  rw [List.map_map]
  rfl

theorem loadedThreads_append_singleton (ps : List ThreadProto) (q : ThreadProto) :
    loadedThreads (ps ++ [q]) = (loadedThreads ps).load q.uid (Thread.hash q.decode.key) q.decode := by
  rw [loadedThreads, List.map_append, List.map_singleton, Interning.Table.loadAll_append_singleton]
  rfl

/-- What the first pass over the threads leaves. -/
theorem loadUid_spec (ps : List ThreadProto) :
    (ps.foldl Program.loadUid {}).index = ∅ ∧ (ps.foldl Program.loadUid {}).curr = (loadedThreads ps).curr ∧
      ∀ i : BitVec 32, (ps.foldl Program.loadUid {}).byId[i]? =
        if i ∈ ps.map (·.uid) then some { uid := i } else none := by
  induction ps using List.reverseRecOn with
  | nil => exact ⟨rfl, rfl, fun i => by simp⟩
  | append_singleton ps q ih =>
    obtain ⟨index, curr, entries⟩ := ih
    rw [List.foldl_append, List.foldl_cons, List.foldl_nil, loadedThreads_append_singleton]
    refine ⟨index, ?_, fun i => ?_⟩
    · simp only [Program.loadUid, Interning.Table.load, curr]
    · have entry : (Program.loadUid (ps.foldl Program.loadUid {}) q).byId[i]? =
          if q.uid = i then some { uid := q.uid } else (ps.foldl Program.loadUid {}).byId[i]? := by
        simp [Program.loadUid, Std.ExtTreeMap.getElem?_insert]
      rw [entry, entries, List.map_append, List.map_singleton]
      by_cases own : q.uid = i
      · simp [own]
      · simp [own, eq_comm (a := i)]

/-- The second pass, after some of the threads: these are complete, the others have
only their uids. -/
structure Completed (ps done : List ThreadProto) (t : Interning.Table 32 64 Thread) : Prop where
  curr : t.curr = (loadedThreads ps).curr
  index : t.index = (loadedThreads done).index
  entries : ∀ i : BitVec 32, t.byId[i]? =
    (loadedThreads done).byId[i]?.or (if i ∈ ps.map (·.uid) then some { uid := i } else none)

theorem Completed.step {ps done rest : List ThreadProto} {q : ThreadProto} {t : Interning.Table 32 64 Thread}
    (all : ps = done ++ q :: rest) (ids : (ps.map (·.uid)).Nodup)
    (creators : ∀ creator, q.creatorUid = some creator → creator ∈ ps.map (·.uid)) (completed : Completed ps done t) :
    ∃ next, Program.loadThread t q = some next ∧ Completed ps (done ++ [q]) next := by
  have distinct : (done.map (·.uid)).Nodup ∧ q.uid ∉ done.map (·.uid) := by
    rw [all, List.map_append, List.map_cons, List.nodup_append] at ids
    exact ⟨ids.1, fun member => ids.2.2 _ member _ List.mem_cons_self rfl⟩
  have loaded : ∀ i thd, (loadedThreads done).byId[i]? = some thd ↔ thd ∈ done.map ThreadProto.decode ∧ thd.uid = i :=
    Interning.Table.entries_loadAll _ (by rw [map_uid_decode]; exact distinct.1)
  have stub : t.byId[q.uid]? = some { uid := q.uid } := by
    have absent : (loadedThreads done).byId[q.uid]? = none := by
      apply Option.eq_none_iff_forall_ne_some.mpr
      intro thd found
      obtain ⟨member, own⟩ := (loaded _ _).mp found
      apply distinct.2
      rw [← map_uid_decode, ← own]
      exact List.mem_map_of_mem member
    rw [completed.entries, absent, Option.none_or, if_pos (by simp [all])]
  have known : ∀ i ∈ ps.map (·.uid), ∃ thd, t.byId[i]? = some thd ∧ thd.uid = i := by
    intro i member
    rw [completed.entries, if_pos member]
    cases found : (loadedThreads done).byId[i]? with
    | none => exact ⟨_, rfl, rfl⟩
    | some thd => exact ⟨thd, rfl, ((loaded i thd).mp found).2⟩
  have stepped : Program.loadThread t q = some (t.add q.uid (Thread.hash q.decode.key) q.decode) := by
    cases created : q.creatorUid with
    | none => simp [Program.loadThread, stub, created, ThreadProto.decode]
    | some creator =>
      obtain ⟨thd, found, own⟩ := known creator (creators creator created)
      simp [Program.loadThread, stub, created, found, own, ThreadProto.decode]
  refine ⟨_, stepped, ⟨completed.curr, ?_, fun i => ?_⟩⟩
  · rw [loadedThreads_append_singleton]
    simp only [Interning.Table.add, Interning.Table.load, Interning.Table.bucket, completed.index]
  · rw [loadedThreads_append_singleton, Interning.Table.getElem?_add, Interning.Table.getElem?_load,
      completed.entries]
    split
    · rfl
    · rfl

/-- The two passes over the threads. -/
theorem loadThreads_spec {ps : List ThreadProto} (ids : (ps.map (·.uid)).Nodup)
    (creators : ∀ q ∈ ps, ∀ creator, q.creatorUid = some creator → creator ∈ ps.map (·.uid)) :
    ps.foldlM Program.loadThread (ps.foldl Program.loadUid {}) = some (loadedThreads ps) := by
  obtain ⟨index, curr, entries⟩ := loadUid_spec ps
  obtain ⟨t, ran, completed⟩ := Runs.foldlM_prefix (Completed ps) ps (by
    intro done t q rest all completed
    exact completed.step all ids (creators q (by simp [all]))) _ ⟨curr, index, fun i => by
      rw [entries]
      simp [loadedThreads, Interning.Table.loadAll]⟩
  have same : t.byId = (loadedThreads ps).byId := by
    apply Std.ExtTreeMap.ext_getElem?
    intro i
    rw [completed.entries]
    cases found : (loadedThreads ps).byId[i]? with
    | some thd => rfl
    | none =>
      rw [Option.none_or, if_neg]
      intro member
      obtain ⟨q, listed, own⟩ := List.mem_map.mp member
      have stored := (Interning.Table.entries_loadAll (fun thd => Thread.hash thd.key)
        (by rw [map_uid_decode]; exact ids) i q.decode).mpr ⟨List.mem_map_of_mem listed, own⟩
      cases found.symm.trans stored
  rw [ran]
  exact congrArg some (by
    obtain ⟨first, second, third⟩ := t
    have parts := completed.curr
    have index := completed.index
    simp only at same parts index
    rw [parts, same, index])

theorem foldlM_eq_foldl {A B : Type} {f : B → A → Option B} {g : B → A → B} {l : List A}
    (total : ∀ a ∈ l, ∀ b, f b a = some (g b a)) (b : B) : l.foldlM f b = some (l.foldl g b) := by
  induction l generalizing b with
  | nil => rfl
  | cons a l ih =>
    obtain ⟨first, others⟩ := List.forall_mem_cons.mp total
    rw [List.foldlM_cons, first b, List.foldl_cons, Option.bind_eq_bind, Option.bind_some, ih others]

/-- Both loops over the objects. -/
theorem loadObjects_spec {threads : Interning.Table 32 64 Thread} {sobject : List SObjectProto}
    {dobject : List DObjectProto} (sound : threads.Sound Thread.uid Thread.key Thread.hash)
    (known : ∀ obj ∈ sobject.map SObjectProto.decode ++ dobject.map DObjectProto.decode, obj.Known sinfo threads) :
    (do
      let objects ← sobject.foldlM (Program.loadSObject sinfo) {}
      dobject.foldlM (Program.loadDObject sinfo threads) objects) =
      some (.loadAll Object.uid (fun obj => Object.hash obj.key)
        (sobject.map SObjectProto.decode ++ dobject.map DObjectProto.decode)) := by
  have statics := foldlM_eq_foldl (f := Program.loadSObject sinfo)
    (g := fun t q => t.load q.uid (Object.hash q.decode.key) q.decode) (l := sobject) (by
      intro q member t
      have found : sinfo.findImage q.imageId = true :=
        known q.decode (List.mem_append_left _ (List.mem_map_of_mem member))
      simp only [Program.loadSObject, debugAssert_pos found]
      rfl) {}
  have dynamics := foldlM_eq_foldl (f := Program.loadDObject sinfo threads)
    (g := fun t q => t.load q.uid (Object.hash q.decode.key) q.decode) (l := dobject) (by
      intro q member t
      obtain ⟨creator, found⟩ : q.creatorUid ∈ threads.byId ∧ sinfo.findInst q.creatorInstId = true :=
        known q.decode (List.mem_append_right _ (List.mem_map_of_mem member))
      have stored := Std.ExtTreeMap.getElem?_eq_some_getElem creator
      simp only [Program.loadDObject, stored, debugAssert_pos found, Option.bind_eq_bind, Option.bind_some,
        sound.ids _ _ stored]
      rfl)
  simp only [statics, dynamics, Option.bind_eq_bind, Option.bind_some, Interning.Table.loadAll, List.foldl_append,
    List.foldl_map]
  rfl

theorem ThreadsInv.of_entries {t t' : Interning.Table 32 64 Thread} (inv : ThreadsInv t)
    (same : ∀ i : BitVec 32, t'.byId[i]? = t.byId[i]?) (sound : t'.Sound Thread.uid Thread.key Thread.hash)
    (dense : t'.Dense) : ThreadsInv t' where
  sound := sound
  dense := dense
  creators i thd creator found created := by
    rw [same] at found
    have member := inv.creators i thd creator found created
    rwa [Std.ExtTreeMap.mem_iff_isSome_getElem?, same, ← Std.ExtTreeMap.mem_iff_isSome_getElem?]
  main thd found := inv.main thd (same _ ▸ found)
  idx i thd found := inv.idx i thd (same _ ▸ found)

/-- Tables with the same entries have the same identifiers. -/
theorem mem_congr {V : Type} {t t' : Interning.Table 32 64 V} (same : ∀ i : BitVec 32, t'.byId[i]? = t.byId[i]?)
    (i : BitVec 32) : i ∈ t'.byId ↔ i ∈ t.byId := by
  rw [Std.ExtTreeMap.mem_iff_isSome_getElem?, same, ← Std.ExtTreeMap.mem_iff_isSome_getElem?]

/-- A load of what was saved has the same entries. -/
structure Restored (sinfo : StaticInfo) (p next : Program) : Prop where
  inv : next.Inv sinfo
  threads : ∀ i : BitVec 32, next.threads.byId[i]? = p.threads.byId[i]?
  objects : ∀ i : BitVec 32, next.objects.byId[i]? = p.objects.byId[i]?

theorem Program.Inv.loadThreads (inv : p.Inv sinfo) {ps : List ThreadProto} (saved : ps.Perm p.save.thread) :
    ps.foldlM Program.loadThread (ps.foldl Program.loadUid {}) = some (loadedThreads ps) ∧
      ThreadsInv (loadedThreads ps) ∧
      ∀ i : BitVec 32, (loadedThreads ps).byId[i]? = p.threads.byId[i]? := by
  have listed : (ps.map ThreadProto.decode).Perm (p.threads.byId.toList.map Prod.snd) := by
    have decoded : p.save.thread.map ThreadProto.decode = p.threads.byId.toList.map Prod.snd := by
      rw [Program.save, List.map_map]
      apply List.map_congr_left
      rintro ⟨i, thd⟩ member
      exact Thread.decode_toProto (inv.threads.idx i thd (Std.ExtTreeMap.mem_toList_iff_getElem?_eq_some.mp member))
    exact decoded ▸ saved.map _
  obtain ⟨loaded, same⟩ := inv.threads.sound.loadAll listed
  have ids : (ps.map (·.uid)).Nodup := by
    rw [← map_uid_decode]
    apply (listed.map Thread.uid).nodup_iff.mpr
    rw [List.map_map]
    exact inv.threads.sound.nodup_ids
  have mem_uids : ∀ i, i ∈ ps.map (·.uid) ↔ i ∈ p.threads.byId := by
    intro i
    rw [← map_uid_decode, (listed.map Thread.uid).mem_iff, List.map_map, List.mem_map]
    constructor
    · rintro ⟨⟨j, thd⟩, member, rfl⟩
      have found := Std.ExtTreeMap.mem_toList_iff_getElem?_eq_some.mp member
      rw [Std.ExtTreeMap.mem_iff_isSome_getElem?, Function.comp_apply, inv.threads.sound.ids j thd found, found]
      rfl
    · intro member
      have found := Std.ExtTreeMap.getElem?_eq_some_getElem member
      exact ⟨(i, _), Std.ExtTreeMap.mem_toList_iff_getElem?_eq_some.mpr found, inv.threads.sound.ids i _ found⟩
  refine ⟨loadThreads_spec ids fun q member creator created => ?_, ?_, same⟩
  · obtain ⟨⟨i, thd⟩, listed, rfl⟩ := List.mem_map.mp (saved.subset member)
    have found := Std.ExtTreeMap.mem_toList_iff_getElem?_eq_some.mp listed
    apply (mem_uids creator).mpr
    apply inv.threads.creators i thd creator found
    cases own : thd.creator with
    | none => simp [Thread.toProto, own] at created
    | some other => simpa [Thread.toProto, own] using created
  · exact inv.threads.of_entries same loaded.sound (loaded.topped.dense inv.threads.dense (mem_congr same))

theorem Program.Inv.load_spec (inv : p.Inv sinfo) {proto : ProgramProto} (saved : proto.Reordered p.save) :
    ∃ next, Program.load sinfo proto = some next ∧ Restored sinfo p next := by
  obtain ⟨ran, threads, same⟩ := inv.loadThreads saved.thread
  have listed : (proto.sobject.map SObjectProto.decode ++ proto.dobject.map DObjectProto.decode).Perm
      (p.objects.byId.toList.map Prod.snd) := by
    apply List.Perm.trans _ (decode_objects _)
    apply List.Perm.append
    · apply List.Perm.map
      rw [List.filterMap_map]
      exact saved.sobject
    · apply List.Perm.map
      rw [List.filterMap_map]
      exact saved.dobject
  have known : ∀ obj ∈ proto.sobject.map SObjectProto.decode ++ proto.dobject.map DObjectProto.decode,
      obj.Known sinfo (loadedThreads proto.thread) := by
    intro obj member
    obtain ⟨⟨i, obj⟩, stored, rfl⟩ := List.mem_map.mp (listed.subset member)
    have found := Std.ExtTreeMap.mem_toList_iff_getElem?_eq_some.mp stored
    exact (inv.known i obj found).mono fun i => (mem_congr same i).mpr
  obtain ⟨loaded, sameObjects⟩ := inv.objects.loadAll listed
  have result := loadObjects_spec threads.sound known
  refine ⟨⟨loadedThreads proto.thread, _⟩, ?_, ⟨threads, loaded.sound,
    loaded.topped.dense inv.objectsDense (mem_congr sameObjects), fun i obj found => ?_⟩, same, sameObjects⟩
  · obtain ⟨middle, first, second⟩ := Option.bind_eq_some_iff.mp result
    simp only [Program.load, ran, first, second, Option.bind_eq_bind, Option.bind_some]
    rfl
  · exact (inv.known i obj (sameObjects i ▸ found)).mono fun i => (mem_congr same i).mpr

end Load

end Maple.Systematic.Names
