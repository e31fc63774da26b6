import Maple.Systematic.NamesLoad

/-! Names of threads and objects over any number of runs. A uid keeps its key from one
run to the next, and a key its uid, as long as the 32 bits of the uids last. -/
namespace Maple.Systematic.Names

/-- The keys of threads that the calls of a trace are about. -/
def threadKeys (tr : List Event) : List ThreadKey := tr.flatMap fun
  | .call .getMainThread => [none]
  | .call (.getThread creator creatorIdx) => [some (creator, creatorIdx)]
  | _ => []

def objectKeys (tr : List Event) : List ObjectKey := tr.flatMap fun
  | .call (.getSObject imageId offset) => [.static imageId offset]
  | .call (.getDObject creator creatorInst creatorIdx offset) => [.dynamic creator creatorInst creatorIdx offset]
  | _ => []

/-- A trace with enough uids for its threads and for its objects. -/
structure Fits (tr : List Event) : Prop where
  threads : (threadKeys tr).toFinset.card ≤ 2 ^ 32
  objects : (objectKeys tr).toFinset.card ≤ 2 ^ 32

theorem threadKeys_mem {tr : List Event} {e : Event} {key : ThreadKey} (member : e ∈ tr)
    (own : key ∈ threadKeys [e]) : key ∈ (threadKeys tr).toFinset := by
  simp only [threadKeys, List.flatMap_cons, List.flatMap_nil, List.append_nil] at own
  exact List.mem_toFinset.mpr (List.mem_flatMap.mpr ⟨e, member, own⟩)

theorem objectKeys_mem {tr : List Event} {e : Event} {key : ObjectKey} (member : e ∈ tr)
    (own : key ∈ objectKeys [e]) : key ∈ (objectKeys tr).toFinset := by
  simp only [objectKeys, List.flatMap_cons, List.flatMap_nil, List.append_nil] at own
  exact List.mem_toFinset.mpr (List.mem_flatMap.mpr ⟨e, member, own⟩)

/-- What the names of a trace promise, where `outs` is what its calls returned. -/
structure Stable (sinfo : StaticInfo) (tr : List Event) (outs : List (Option Uid)) : Prop where
  returns : ∀ (i : ℕ) call, tr[i]? = some (.call call) → ∃ uid, outs[i]? = some (some uid)
  names : ∀ (i j : ℕ) call call' uid uid', tr[i]? = some (.call call) → tr[j]? = some (.call call') →
    outs[i]? = some (some uid) → outs[j]? = some (some uid') → (uid = uid' ↔ call.key = call'.key)
  named : ∀ (i : ℕ) call uid p, tr[i]? = some (.call call) → outs[i]? = some (some uid) →
    Runs.At (Program.step sinfo) {} tr (i + 1) p → p.named uid = some call.key
  kept : ∀ (n m : ℕ) before after, n ≤ m → Runs.At (Program.step sinfo) {} tr n before →
    Runs.At (Program.step sinfo) {} tr m after → before.Kept after

variable {sinfo : StaticInfo} {p next : Program} {tr : List Event} {call : Call} {e : Event} {n : ℕ}

theorem Program.Inv.call_spec (fits : Fits tr) (inv : p.Inv sinfo)
    (among : p.Among (threadKeys tr).toFinset (objectKeys tr).toFinset) (member : .call call ∈ tr)
    (allowed : p.Allows sinfo (.call call)) :
    ∃ next uid, p.call call = some (next, uid) ∧
      Called sinfo (threadKeys tr).toFinset (objectKeys tr).toFinset p call.key next uid := by
  match call with
  | .getMainThread =>
    refine ⟨_, _, by rw [Program.call, inv.getMainThread_eq]; rfl, ?_⟩
    exact inv.call_thread among nofun (threadKeys_mem member (by simp [threadKeys])) fits.threads
  | .getThread creator creatorIdx =>
    refine ⟨_, _, rfl, ?_⟩
    apply inv.call_thread among _ (threadKeys_mem member (by simp [threadKeys])) fits.threads
    rintro creator' creatorIdx' same
    cases same
    exact allowed
  | .getSObject imageId offset =>
    refine ⟨_, _, rfl, ?_⟩
    exact inv.call_object among (fun uid => .sobject uid imageId offset) (fun uid => rfl) (fun uid => rfl)
      (fun uid => allowed) (objectKeys_mem member (by simp [objectKeys])) fits.objects
  | .getDObject creator creatorInst creatorIdx offset =>
    refine ⟨_, _, rfl, ?_⟩
    exact inv.call_object among (fun uid => .dobject uid creator creatorInst creatorIdx offset)
      (fun uid => rfl) (fun uid => rfl) (fun uid => allowed) (objectKeys_mem member (by simp [objectKeys]))
      fits.objects

/-- What holds behind each event of a trace. -/
structure InvAt (sinfo : StaticInfo) (tr : List Event) (p : Program) : Prop where
  inv : p.Inv sinfo
  among : p.Among (threadKeys tr).toFinset (objectKeys tr).toFinset

theorem InvAt.step (fits : Fits tr) (inv : InvAt sinfo tr p) (here : tr[n]? = some e) (allowed : p.Allows sinfo e) :
    ∃ next out, p.step sinfo e = some (next, out) ∧ InvAt sinfo tr next ∧ p.Kept next ∧
      ∀ call, e = .call call → ∃ uid, out = some uid ∧ next.named uid = some call.key := by
  match e with
  | .call call =>
    obtain ⟨next, uid, ran, called⟩ := inv.inv.call_spec fits inv.among (List.mem_of_getElem? here) allowed
    refine ⟨next, some uid, by rw [Program.step, ran]; rfl, ⟨called.inv, called.among⟩, called.kept, ?_⟩
    rintro call' same
    cases same
    exact ⟨uid, rfl, called.named⟩
  | .restart proto =>
    obtain ⟨next, ran, restored⟩ := inv.inv.load_spec allowed
    refine ⟨next, none, by rw [Program.step, ran]; rfl, ⟨restored.inv, ⟨fun i thd found => ?_, fun i obj found => ?_⟩⟩,
      Program.kept_of_tables (fun i thd found => ?_) (fun i obj found => ?_), nofun⟩
    · exact inv.among.threads i thd (restored.threads i ▸ found)
    · exact inv.among.objects i obj (restored.objects i ▸ found)
    · rw [restored.threads]
      exact found
    · rw [restored.objects]
      exact found

theorem exists_at (fits : Fits tr) (allowed : Runs.Along (Program.step sinfo) (Program.Allows sinfo) {} tr)
    (bound : n ≤ tr.length) : ∃ p, Runs.At (Program.step sinfo) {} tr n p ∧ InvAt sinfo tr p := by
  apply Runs.exists_at (fun _ => InvAt sinfo tr) ⟨Program.inv_empty, by simp, by simp⟩ _ allowed bound
  intro n p e here inv allowed
  obtain ⟨next, out, stepped, kept, _⟩ := inv.step fits here allowed
  exact ⟨next, out, stepped, kept⟩

theorem kept_at (fits : Fits tr) (allowed : Runs.Along (Program.step sinfo) (Program.Allows sinfo) {} tr) {m : ℕ}
    (later : n ≤ m) (before : Runs.At (Program.step sinfo) {} tr n p)
    (after : Runs.At (Program.step sinfo) {} tr m next) : p.Kept next := by
  apply Runs.advance_at Program.Kept.refl (fun _ _ _ => .trans) _ _ later before after
  · intro n bound
    obtain ⟨p, reached, _⟩ := exists_at fits allowed bound
    exact ⟨p, reached⟩
  · intro n e before after here reached reached'
    obtain ⟨bound, -⟩ := List.getElem?_eq_some_iff.mp here
    obtain ⟨p, ⟨outs, ran⟩, inv⟩ := exists_at fits allowed bound.le
    obtain ⟨next, out, stepped, _, kept, _⟩ := inv.step fits here (Runs.along_at allowed ran here)
    rw [reached.unique ⟨outs, ran⟩, reached'.unique (Runs.At.succ ⟨outs, ran⟩ here stepped)]
    exact kept

/-- While uids last, a key has one uid over all runs, and a uid one key. -/
theorem names_stable (allowed : Runs.Along (Program.step sinfo) (Program.Allows sinfo) {} tr) (fits : Fits tr) :
    ∃ last outs, Runs.run (Program.step sinfo) {} tr = some (last, outs) ∧ Stable sinfo tr outs := by
  obtain ⟨last, ⟨outs, ran⟩, inv⟩ := exists_at fits allowed le_rfl
  have final : Runs.At (Program.step sinfo) {} tr tr.length last := ⟨outs, ran⟩
  rw [List.take_length] at ran
  have called : ∀ (i : ℕ) call, tr[i]? = some (.call call) → ∃ uid next, outs[i]? = some (some uid) ∧
      Runs.At (Program.step sinfo) {} tr (i + 1) next ∧ next.named uid = some call.key := by
    intro i call here
    obtain ⟨p, head, next, out, reached, stepped, reached', emitted⟩ := Runs.run_at here ran
    obtain ⟨bound, -⟩ := List.getElem?_eq_some_iff.mp here
    obtain ⟨p', same, inv⟩ := exists_at fits allowed bound.le
    obtain rfl := same.unique ⟨head, reached⟩
    obtain ⟨next', out', stepped', -, -, named⟩ := inv.step fits here (Runs.along_at allowed reached here)
    cases stepped.symm.trans stepped'
    obtain ⟨uid, rfl, own⟩ := named call rfl
    exact ⟨uid, next, emitted, ⟨_, reached'⟩, own⟩
  have named : ∀ (i : ℕ) call uid, tr[i]? = some (.call call) → outs[i]? = some (some uid) →
      last.named uid = some call.key := by
    intro i call uid here returned
    obtain ⟨uid', next, returned', reached, named⟩ := called i call here
    cases returned.symm.trans returned'
    obtain ⟨bound, -⟩ := List.getElem?_eq_some_iff.mp here
    exact kept_at fits allowed bound reached final uid _ named
  refine ⟨last, outs, ran, ⟨fun i call here => ?_, fun i j call call' uid uid' here here' returned returned' => ?_,
    fun i call uid p here returned reached => ?_, fun n m before after later => kept_at fits allowed later⟩⟩
  · obtain ⟨uid, next, returned, _⟩ := called i call here
    exact ⟨uid, returned⟩
  · have first := named i call uid here returned
    have second := named j call' uid' here' returned'
    constructor
    · rintro rfl
      exact Option.some.inj (first.symm.trans second)
    · intro same
      exact inv.inv.named_unique first (same ▸ second)
  · obtain ⟨uid', next, returned', reached', named⟩ := called i call here
    cases returned.symm.trans returned'
    rwa [reached.unique reached']

/-- Static information that knows everything. -/
def allKnown : StaticInfo := ⟨fun _ => true, fun _ => true⟩

/-- The main thread, and then as many objects at different offsets of one image. -/
def manyObjects (count : ℕ) : List Event :=
  .call .getMainThread :: (List.range count).map fun n => .call (.getSObject 1 (BitVec.ofNat 64 n))

/-- Different objects cannot all have different uids if they are more than the uids. -/
theorem not_stable_of_many {count : ℕ} (many : 2 ^ 32 < count) (few : count ≤ 2 ^ 64) :
    ¬ ∃ last outs, Runs.run (Program.step sinfo) {} (manyObjects count) = some (last, outs) ∧
      Stable sinfo (manyObjects count) outs := by
  rintro ⟨last, outs, ran, stable⟩
  have here : ∀ n : Fin count, (manyObjects count)[n.val + 1]? =
      some (.call (.getSObject 1 (BitVec.ofNat 64 n.val))) := by
    intro n
    simp [manyObjects]
  have returned : ∀ n : Fin count, ∃ uid, outs[n.val + 1]? = some (some (.object uid)) := by
    intro n
    obtain ⟨p, head, next, out, _, stepped, _, emitted⟩ := Runs.run_at (here n) ran
    cases stepped
    exact ⟨_, emitted⟩
  choose uid returned using returned
  have injective : Function.Injective fun n => (uid n).toFin := by
    intro n k same
    have uids : uid n = uid k := BitVec.toFin_inj.mp same
    have keys := (stable.names _ _ _ _ _ _ (here n) (here k) (returned n) (returned k)).mp (congrArg Uid.object uids)
    obtain ⟨-, offsets⟩ := ObjectKey.static.inj (Key.object.inj keys)
    have values := congrArg BitVec.toNat offsets
    rw [BitVec.toNat_ofNat, BitVec.toNat_ofNat, Nat.mod_eq_of_lt (n.isLt.trans_le few),
      Nat.mod_eq_of_lt (k.isLt.trans_le few)] at values
    exact Fin.ext values
  have fits := Fintype.card_le_of_injective _ injective
  rw [Fintype.card_fin, Fintype.card_fin] at fits
  exact absurd fits (Nat.not_le.mpr many)

theorem manyObjects_allowed (count : ℕ) :
    Runs.Along (Program.step allKnown) (Program.Allows allKnown) {} (manyObjects count) := by
  apply Runs.along_of_mem
  intro e member p
  rcases List.mem_cons.mp member with rfl | member
  · trivial
  · obtain ⟨n, -, rfl⟩ := List.mem_map.mp member
    rfl

/-- More objects than uids. -/
@[irreducible] def tooManyObjects : ℕ := 2 ^ 32 + 1

/-- A run with `2 ^ 32 + 1` different objects. -/
theorem names_wrap :
    Runs.Along (Program.step allKnown) (Program.Allows allKnown) {} (manyObjects tooManyObjects) ∧
      ¬ ∃ last outs, Runs.run (Program.step allKnown) {} (manyObjects tooManyObjects) = some (last, outs) ∧
        Stable allKnown (manyObjects tooManyObjects) outs := by
  have count : tooManyObjects = 2 ^ 32 + 1 := by rw [tooManyObjects]
  refine ⟨manyObjects_allowed _, not_stable_of_many ?_ ?_⟩
  · rw [count]
    omega
  · rw [count]
    omega

/-- Objects of both kinds with one hash, a restart that lists threads in another order,
and the same names again. -/
def namesTrace : List Event :=
  [.call .getMainThread, .call (.getThread 1 1), .call (.getThread 2 1), .call (.getSObject 1 3),
    .call (.getDObject 1 1 1 1),
    .restart
      { thread := [⟨3, some 2, 1⟩, { uid := 1 }, ⟨2, some 1, 1⟩]
        sobject := [⟨1, 1, 3⟩]
        dobject := [⟨2, 1, 1, 1, 1⟩] },
    .call (.getDObject 1 1 1 1), .call (.getThread 1 1), .call (.getThread 1 2)]

theorem names_stable_restart :
    ∃ last outs, Runs.run (Program.step allKnown) {} namesTrace = some (last, outs) ∧
      Stable allKnown namesTrace outs :=
  names_stable (by decide +kernel) ⟨by decide, by decide⟩

end Maple.Systematic.Names
