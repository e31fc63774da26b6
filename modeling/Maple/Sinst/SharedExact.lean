import Maple.Race.Lifetimes
import Maple.Sinst.Analyzer

/-! The flags of a unit summarise the accesses of its present lifetime, and so the
marked instructions are those of lifetimes with two threads and a write. -/
namespace Maple.Sinst
open Race

/-- The accesses to one unit in one lifetime, without their order. -/
abbrev Touches := RaceEventType → ThreadId → InstId → Prop

namespace Touches

def Uses (P : Touches) (inst : InstId) : Prop := ∃ k t, P k t inst
def Written (P : Touches) : Prop := ∃ t inst, P .write t inst
def TwoThreads (P : Touches) : Prop := ∃ k t inst l u inst', P k t inst ∧ P l u inst' ∧ t ≠ u
def Shared (P : Touches) : Prop := P.TwoThreads ∧ P.Written

/-- One more access. -/
def add (P : Touches) (k : RaceEventType) (t : ThreadId) (inst : InstId) : Touches :=
  fun l u inst' => P l u inst' ∨ l = k ∧ u = t ∧ inst' = inst

section
variable {P : Touches} {k : RaceEventType} {t : ThreadId} {inst inst' : InstId}

@[simp] theorem uses_add : (P.add k t inst).Uses inst' ↔ P.Uses inst' ∨ inst' = inst := by
  constructor
  · rintro ⟨l, u, old | ⟨rfl, rfl, rfl⟩⟩
    · exact Or.inl ⟨l, u, old⟩
    · exact Or.inr rfl
  · rintro (⟨l, u, old⟩ | rfl)
    · exact ⟨l, u, Or.inl old⟩
    · exact ⟨k, t, Or.inr ⟨rfl, rfl, rfl⟩⟩

@[simp] theorem written_add : (P.add k t inst).Written ↔ P.Written ∨ k = .write := by
  constructor
  · rintro ⟨u, inst', old | ⟨rfl, -⟩⟩
    · exact Or.inl ⟨u, inst', old⟩
    · exact Or.inr rfl
  · rintro (⟨u, inst', old⟩ | rfl)
    · exact ⟨u, inst', Or.inl old⟩
    · exact ⟨t, inst, Or.inr ⟨rfl, rfl, rfl⟩⟩

/-- A second thread: there were two before, or the new one is not the one that was there. -/
theorem twoThreads_add (k : RaceEventType) (t : ThreadId) (inst : InstId) {l : RaceEventType} {u : ThreadId}
    (last : P l u inst') :
    (P.add k t inst).TwoThreads ↔ P.TwoThreads ∨ t ≠ u := by
  constructor
  · rintro ⟨k₁, t₁, i₁, k₂, t₂, i₂, first | ⟨rfl, rfl, rfl⟩, second | ⟨rfl, rfl, rfl⟩, different⟩
    · exact Or.inl ⟨k₁, t₁, i₁, k₂, t₂, i₂, first, second, different⟩
    · by_cases same : t₂ = u
      · exact Or.inl ⟨k₁, t₁, i₁, l, u, inst', first, last, same ▸ different⟩
      · exact Or.inr same
    · by_cases same : t₁ = u
      · exact Or.inl ⟨l, u, inst', k₂, t₂, i₂, last, second, same ▸ different⟩
      · exact Or.inr same
    · exact absurd rfl different
  · rintro (⟨k₁, t₁, i₁, k₂, t₂, i₂, first, second, different⟩ | different)
    · exact ⟨k₁, t₁, i₁, k₂, t₂, i₂, Or.inl first, Or.inl second, different⟩
    · exact ⟨k, t, inst, l, u, inst', Or.inr ⟨rfl, rfl, rfl⟩, Or.inl last, different⟩

theorem Uses.mono {P' : Touches} (within : ∀ k t inst, P k t inst → P' k t inst) (uses : P.Uses inst) :
    P'.Uses inst := by
  obtain ⟨k, t, touch⟩ := uses
  exact ⟨k, t, within _ _ _ touch⟩

theorem Shared.mono {P' : Touches} (within : ∀ k t inst, P k t inst → P' k t inst) (shared : P.Shared) :
    P'.Shared := by
  obtain ⟨⟨k₁, t₁, i₁, k₂, t₂, i₂, first, second, different⟩, u, i, wrote⟩ := shared
  exact ⟨⟨k₁, t₁, i₁, k₂, t₂, i₂, within _ _ _ first, within _ _ _ second, different⟩,
    u, i, within _ _ _ wrote⟩

theorem Shared.add (shared : P.Shared) : (P.add k t inst).Shared :=
  shared.mono fun _ _ _ touch => Or.inl touch

end
end Touches

/-- The entry of a unit that is not yet shared remembers what decides whether it will be. -/
structure Meta.Pending (m : Meta) (P : Touches) : Prop where
  insts : ∀ inst, inst ∈ m.instSet ↔ P.Uses inst
  hasWrite : m.hasWrite = true ↔ P.Written
  multiRead : m.multiRead = true ↔ P.TwoThreads
  last : ∃ k inst, P k m.lastThdId inst

def Summarises (P : Touches) : Option Meta → Prop
  | none => ∀ k t inst, ¬ P k t inst
  | some m => if m.shared then P.Shared else m.Pending P ∧ ¬ P.Shared

theorem summarises_some (P : Touches) (m : Meta) : Summarises P (some m) ↔
    if m.shared then P.Shared else m.Pending P ∧ ¬ P.Shared := Iff.rfl

/-- What an access adds: the new entry, and the instructions marked now. Those of
an earlier shared set have been marked before. -/
structure Adds (P : Touches) (inst : InstId) (P' : Touches) (result : Meta × List InstId) : Prop where
  summarises : Summarises P' (some result.1)
  sound : ∀ i ∈ result.2, P'.Shared ∧ P'.Uses i
  complete : P'.Shared → ∀ i, P'.Uses i → i ∈ result.2 ∨ P.Shared ∧ P.Uses i

namespace Meta
variable {P : Touches} {curr : ThreadId} {inst : InstId}

theorem adds_pending {P' : Touches} {m : Meta} (unshared : m.shared = false) (pending : m.Pending P')
    (still : ¬ P'.Shared) : Adds P inst P' (m, []) where
  summarises := by simp [Summarises, unshared, pending, still]
  sound := by simp
  complete shared := absurd shared still

theorem adds_markShared {P' : Touches} {m : Meta} (insts : ∀ i, i ∈ m.instSet ↔ P'.Uses i)
    (shared : P'.Shared) : Adds P inst P' m.markShared where
  summarises := by simp [Summarises, markShared, shared]
  sound i member := ⟨shared, (insts i).mp (by simpa [markShared] using member)⟩
  complete _ i uses := Or.inl (by simpa [markShared] using (insts i).mpr uses)

theorem adds_shared {k : RaceEventType} {old : Meta} (known : old.shared = true) (shared : P.Shared) :
    Adds P inst (P.add k curr inst) (old, [inst]) where
  summarises := by simp [Summarises, known, shared.add]
  sound i member := by
    rw [List.mem_singleton] at member
    exact ⟨shared.add, by simp [member]⟩
  complete _ i uses := by
    rcases Touches.uses_add.mp uses with before | rfl
    · exact Or.inr ⟨shared, before⟩
    · exact Or.inl (List.mem_singleton_self i)

/-- The first access of a lifetime. -/
theorem adds_first {k : RaceEventType} (untouched : ∀ k t inst, ¬ P k t inst) {m : Meta}
    (fresh : m.shared = false ∧ m.multiRead = false ∧ m.lastThdId = curr ∧ m.instSet = {inst})
    (hasWrite : m.hasWrite = true ↔ k = .write) : Adds P inst (P.add k curr inst) (m, []) := by
  have single : ¬ (P.add k curr inst).TwoThreads := by
    rintro ⟨k₁, t₁, i₁, k₂, t₂, i₂, first | ⟨-, rfl, -⟩, second | ⟨-, rfl, -⟩, different⟩
    · exact untouched _ _ _ first
    · exact untouched _ _ _ first
    · exact untouched _ _ _ second
    · exact different rfl
  have unused : ∀ i, ¬ P.Uses i := fun i ⟨k, t, old⟩ => untouched k t i old
  have unwritten : ¬ P.Written := fun ⟨t, i, old⟩ => untouched _ t i old
  apply adds_pending fresh.1 ⟨?_, ?_, ?_, ?_⟩ fun shared => single shared.1
  · intro i
    rw [Touches.uses_add, fresh.2.2.2]
    simp [unused, eq_comm (a := i)]
  · simp [hasWrite, unwritten]
  · simp [fresh.2.1, single]
  · exact ⟨k, inst, Or.inr ⟨rfl, fresh.2.2.1, rfl⟩⟩

theorem Pending.insert {k : RaceEventType} {old : Meta} (pending : old.Pending P) (i : InstId) :
    i ∈ old.instSet.insert inst ↔ (P.add k curr inst).Uses i := by
  rw [Touches.uses_add, ← pending.insts, or_comm, mem_insert_inst]

theorem read_unshared {old : Meta} (unshared : ¬ old.shared = true) :
    read curr inst (some old) =
      if curr ≠ old.lastThdId then
        if old.hasWrite then (old.insertInst inst).markShared
        else ({ old.insertInst inst with multiRead := true, lastThdId := curr }, [])
      else (old.insertInst inst, []) := if_neg unshared

theorem write_unshared {old : Meta} (unshared : ¬ old.shared = true) :
    write curr inst (some old) =
      if curr ≠ old.lastThdId ∨ old.multiRead = true then
        ({ old with hasWrite := true }.insertInst inst).markShared
      else ({ old with hasWrite := true }.insertInst inst, []) := if_neg unshared

theorem read_adds {entry : Option Meta} (summarises : Summarises P entry) :
    Adds P inst (P.add .read curr inst) (read curr inst entry) := by
  cases entry with
  | none => exact adds_first summarises ⟨rfl, rfl, rfl, rfl⟩ (by simp)
  | some old =>
    rw [summarises_some] at summarises
    split at summarises
    · next known =>
      rw [read, if_pos known]
      exact adds_shared known summarises
    · next unshared =>
      obtain ⟨pending, still⟩ := summarises
      obtain ⟨k, inst', last⟩ := pending.last
      have threads := Touches.twoThreads_add .read curr inst last
      have written : (P.add .read curr inst).Written ↔ P.Written := by simp
      rw [read_unshared unshared]
      by_cases same : curr = old.lastThdId
      · rw [if_neg (not_not.mpr same)]
        refine adds_pending (Bool.eq_false_iff.mpr unshared) ⟨pending.insert, ?_, ?_, ?_⟩ ?_
        · exact pending.hasWrite.trans written.symm
        · rw [threads, or_iff_left (not_not.mpr same)]
          exact pending.multiRead
        · exact ⟨k, inst', Or.inl last⟩
        · rintro ⟨two, wrote⟩
          exact still ⟨(threads.mp two).resolve_right (not_not.mpr same), written.mp wrote⟩
      · rw [if_pos same]
        by_cases wrote : old.hasWrite = true
        · rw [if_pos wrote]
          exact adds_markShared pending.insert
            ⟨threads.mpr (Or.inr same), written.mpr (pending.hasWrite.mp wrote)⟩
        · rw [if_neg wrote]
          refine adds_pending (Bool.eq_false_iff.mpr unshared) ⟨pending.insert, ?_, ?_, ?_⟩ ?_
          · exact pending.hasWrite.trans written.symm
          · simp [threads, same]
          · exact ⟨.read, inst, Or.inr ⟨rfl, rfl, rfl⟩⟩
          · exact fun shared => wrote (pending.hasWrite.mpr (written.mp shared.2))

theorem write_adds {entry : Option Meta} (summarises : Summarises P entry) :
    Adds P inst (P.add .write curr inst) (write curr inst entry) := by
  cases entry with
  | none => exact adds_first summarises ⟨rfl, rfl, rfl, rfl⟩ (by simp)
  | some old =>
    rw [summarises_some] at summarises
    split at summarises
    · next known =>
      rw [write, if_pos known]
      exact adds_shared known summarises
    · next unshared =>
      obtain ⟨pending, still⟩ := summarises
      obtain ⟨k, inst', last⟩ := pending.last
      have threads := Touches.twoThreads_add .write curr inst last
      have written : (P.add .write curr inst).Written := Touches.written_add.mpr (Or.inr rfl)
      rw [write_unshared unshared]
      by_cases second : curr ≠ old.lastThdId ∨ old.multiRead = true
      · rw [if_pos second]
        refine adds_markShared pending.insert ⟨threads.mpr ?_, written⟩
        exact second.symm.imp_left pending.multiRead.mp
      · rw [if_neg second]
        rw [not_or, not_not] at second
        have single : ¬ (P.add .write curr inst).TwoThreads := by
          rw [threads, not_or, ← pending.multiRead, not_not]
          exact second.symm
        refine adds_pending (Bool.eq_false_iff.mpr unshared) ⟨pending.insert, ?_, ?_, ?_⟩ ?_
        · simp [insertInst, written]
        · simpa [insertInst, single] using second.2
        · exact ⟨k, inst', Or.inl last⟩
        · exact fun shared => single shared.1

end Meta

namespace SharedInstAnalyzer

/-- With every unit at most once, each one is processed on its own old entry. -/
theorem accessUnits_spec (process : Option Meta → Meta × List InstId) (units : List Address)
    (distinct : units.Nodup) (a : SharedInstAnalyzer) :
    ∃ table db, units.foldl (accessUnit process) a = { a with metaTable := table, sinstDb := db } ∧
      (∀ x : Address, table[x]? = if x ∈ units then some (process a.metaTable[x]?).1 else a.metaTable[x]?) ∧
      ∀ inst, db.shared inst = true ↔
        a.sinstDb.shared inst = true ∨ ∃ x ∈ units, inst ∈ (process a.metaTable[x]?).2 := by
  induction units generalizing a with
  | nil => exact ⟨a.metaTable, a.sinstDb, rfl, by simp, by simp⟩
  | cons iaddr rest ih =>
    obtain ⟨absent, distinct⟩ := List.nodup_cons.mp distinct
    obtain ⟨table, db, looped, entries, marked⟩ := ih distinct (accessUnit process a iaddr)
    have kept : ∀ x ≠ iaddr, (accessUnit process a iaddr).metaTable[x]? = a.metaTable[x]? := by
      intro x other
      simp [accessUnit, Ne.symm other]
    refine ⟨table, db, looped, fun x => ?_, fun inst => ?_⟩
    · rw [entries]
      by_cases same : x = iaddr
      · subst same
        simp [absent, accessUnit]
      · simp [kept x same, same]
    · have others : (∃ x ∈ rest, inst ∈ (process (accessUnit process a iaddr).metaTable[x]?).2) ↔
          ∃ x ∈ rest, inst ∈ (process a.metaTable[x]?).2 := by
        apply exists_congr
        intro x
        apply and_congr_right
        intro member
        rw [kept x fun same => absent (same ▸ member)]
      rw [marked, others, List.exists_mem_cons_iff, ← or_assoc]
      simp only [accessUnit, SharedInstDB.shared_foldl]

/-- Region operations leave the database alone and forget the units of released regions. -/
structure Applies (unitSize : Address) (live : List Region) (ops : List RegionOp)
    (a a' : SharedInstAnalyzer) : Prop where
  unit : a'.unitSize = a.unitSize
  sinstDb : a'.sinstDb = a.sinstDb
  filter : a'.filter.Tracks (ops.foldl RegionOp.apply live)
  metaTable : ∀ x : Address, a'.metaTable[x]? =
    if SomeFrees unitSize x live ops then none else a.metaTable[x]?

section
variable {unitSize : Address} {live : List Region} {a a' a'' : SharedInstAnalyzer}

theorem Applies.nil (tracks : a.filter.Tracks live) : Applies unitSize live [] a a where
  unit := rfl
  sinstDb := rfl
  filter := tracks
  metaTable x := by simp [SomeFrees]

theorem Applies.append {first rest : List RegionOp} (before : Applies unitSize live first a a')
    (after : Applies unitSize (first.foldl RegionOp.apply live) rest a' a'') :
    Applies unitSize live (first ++ rest) a a'' where
  unit := after.unit.trans before.unit
  sinstDb := after.sinstDb.trans before.sinstDb
  filter := by
    rw [List.foldl_append]
    exact after.filter
  metaTable x := by
    rw [after.metaTable, before.metaTable]
    simp only [someFrees_append]
    by_cases first : SomeFrees unitSize x live first <;> simp [first]

theorem allocAddrRegion_applies (tracks : a.filter.Tracks live) {addr size : Address}
    (admitted : AllAdmitted unitSize live [.alloc ⟨addr, size⟩]) :
    ∃ a', a.allocAddrRegion addr size = some a' ∧ Applies unitSize live [.alloc ⟨addr, size⟩] a a' := by
  have fits := admitted.1.1
  refine ⟨{ a with filter := a.filter.addRegion addr size }, ?_, rfl, rfl, ?_, fun x => ?_⟩
  · rw [allocAddrRegion, debugAssert_pos ⟨fits.1, fits.2.1⟩]
    rfl
  · exact tracks.addRegion admitted.1
  · simp [SomeFrees, RegionOp.Frees]

theorem getElem?_foldl_erase (units : List Address) (table : OrdMap Address Meta) (x : Address) :
    (units.foldl (·.erase ·) table)[x]? = if x ∈ units then none else table[x]? := by
  induction units generalizing table with
  | nil => simp
  | cons iaddr rest ih =>
    rw [List.foldl_cons, ih, getElem?_erase_address]
    by_cases same : x = iaddr
    · simp [same]
    · simp [same, Ne.symm same]

theorem freeAddrRegion_applies (addr : Address) (tracks : a.filter.Tracks live)
    (admitted : AllAdmitted a.unitSize live [.free addr]) :
    Applies a.unitSize live [.free addr] a (a.freeAddrRegion addr) := by
  by_cases null : addr = 0
  · subst null
    have absent : ∀ r ∈ live, r.addr ≠ 0 := fun r member => (tracks.fits r member).1
    have kept : (RegionOp.free 0).apply live = live :=
      List.filter_eq_self.mpr fun r member => by simpa using absent r member
    rw [freeAddrRegion, if_pos rfl]
    refine ⟨rfl, rfl, by rwa [List.foldl_cons, List.foldl_nil, kept], fun x => ?_⟩
    rw [if_neg]
    rintro (⟨r, member, same, -⟩ | never)
    · exact absent r member same
    · exact never
  · obtain ⟨removed, units⟩ := tracks.removeRegion admitted.1 null
    rw [freeAddrRegion, if_neg null]
    refine ⟨rfl, rfl, removed, fun x => ?_⟩
    simp only [getElem?_foldl_erase, units, SomeFrees, or_false]

theorem allocSection_applies (tracks : a.filter.Tracks live) {start size : Address}
    (admitted : AllAdmitted unitSize live (sectionOps start size)) :
    ∃ a', a.allocSection start size = some a' ∧ Applies unitSize live (sectionOps start size) a a' := by
  unfold sectionOps allocSection at *
  split
  · next present =>
    rw [if_pos present] at admitted
    obtain ⟨a', allocated, applies⟩ := allocAddrRegion_applies tracks admitted
    refine ⟨a', ?_, applies⟩
    rw [debugAssert_pos admitted.1.1.2.1]
    exact allocated
  · exact ⟨a, rfl, .nil tracks⟩

end

/-- Unit `x` has been shared at some time, and then or later in that lifetime `inst` used it. -/
def MarkedBy (unitSize : Address) (tr : List Hook) (n : ℕ) (inst : InstId) : Prop :=
  ∃ x, ∃ m ≤ n, Touches.Shared (Touched unitSize tr x m) ∧ Touches.Uses (Touched unitSize tr x m) inst

structure RunInv (unitSize : Address) (tr : List Hook) (n : ℕ) (a : SharedInstAnalyzer) : Prop where
  unit : a.unitSize = unitSize
  filter : a.filter.Tracks (liveAt tr n)
  units : ∀ x, Summarises (Touched unitSize tr x n) a.metaTable[x]?
  marked : ∀ inst, a.sinstDb.shared inst = true ↔ MarkedBy unitSize tr n inst

section
variable {unitSize : Address} {tr : List Hook} {n : ℕ} {a a' : SharedInstAnalyzer} {e : Hook}

theorem markedBy_succ (inst : InstId) : MarkedBy unitSize tr (n + 1) inst ↔ MarkedBy unitSize tr n inst ∨
    ∃ x, Touches.Shared (Touched unitSize tr x (n + 1)) ∧ Touches.Uses (Touched unitSize tr x (n + 1)) inst := by
  constructor
  · rintro ⟨x, m, below, shared, uses⟩
    rcases Nat.le_succ_iff.mp below with below | rfl
    · exact Or.inl ⟨x, m, below, shared, uses⟩
    · exact Or.inr ⟨x, shared, uses⟩
  · rintro (⟨x, m, below, shared, uses⟩ | ⟨x, shared, uses⟩)
    · exact ⟨x, m, Nat.le_succ_of_le below, shared, uses⟩
    · exact ⟨x, n + 1, Nat.le_refl _, shared, uses⟩

/-- A hook that accesses nothing. -/
theorem RunInv.regions (a' : SharedInstAnalyzer) (inv : RunInv unitSize tr n a) (here : tr[n]? = some e)
    (other : ∀ (k : RaceEventType) t inst addr size, e ≠ k.hook t inst addr size)
    (applies : Applies unitSize (liveAt tr n) e.regionOps a a') : RunInv unitSize tr (n + 1) a' := by
  have frees : ∀ x, Frees unitSize tr x n ↔ SomeFrees unitSize x (liveAt tr n) e.regionOps := fun x =>
    ⟨fun ⟨e', there, holds⟩ => Option.some.inj (here.symm.trans there) ▸ holds, fun holds => ⟨e, here, holds⟩⟩
  have untouched : ∀ x k t inst, ¬ Accesses unitSize tr k x n t inst := fun x k t inst =>
    not_accesses_of unitSize here other k x t inst
  have touched : ∀ x, Touched unitSize tr x (n + 1) =
      fun k t inst => ¬ Frees unitSize tr x n ∧ Touched unitSize tr x n k t inst := by
    intro x
    funext k t inst
    rw [eq_iff_iff, touched_succ, or_iff_left (untouched x k t inst)]
  refine ⟨applies.unit.trans inv.unit, liveAt_succ here ▸ applies.filter, fun x => ?_, fun inst => ?_⟩
  · rw [applies.metaTable, touched]
    by_cases freed : SomeFrees unitSize x (liveAt tr n) e.regionOps
    · rw [if_pos freed]
      exact fun k t inst touch => touch.1 ((frees x).mpr freed)
    · simpa [freed, frees] using inv.units x
  · rw [applies.sinstDb, inv.marked, markedBy_succ, iff_self_or]
    rintro ⟨x, shared, uses⟩
    -- an empty lifetime is not shared, so nothing was released here
    have kept : ¬ Frees unitSize tr x n := by
      obtain ⟨k, t, touch⟩ := uses
      rw [touched] at touch
      exact touch.1
    simp only [touched, kept, not_false_eq_true, true_and] at shared uses
    exact ⟨x, n, Nat.le_refl n, shared, uses⟩

def Processes (k : RaceEventType) (curr : ThreadId) (inst : InstId)
    (process : Option Meta → Meta × List InstId) : Prop :=
  ∀ P entry, Summarises P entry → Adds P inst (P.add k curr inst) (process entry)

theorem RunInv.access (inv : RunInv unitSize tr n a) {k : RaceEventType} {curr : ThreadId}
    {inst : InstId} {addr size : Address} {process : Option Meta → Meta × List InstId}
    (adds : Processes k curr inst process) (here : tr[n]? = some (k.hook curr inst addr size))
    (inside : ∃ r ∈ liveAt tr n, r.Covers addr size) :
    RunInv unitSize tr (n + 1) (a.beforeMem process addr size) := by
  obtain ⟨r, member, covers⟩ := inside
  have same : liveAt tr (n + 1) = liveAt tr n := by
    rw [liveAt_succ here]
    cases k <;> rfl
  have access : ∀ x l t i, Accesses unitSize tr l x n t i ↔
      x ∈ unitsOf unitSize addr size ∧ l = k ∧ t = curr ∧ i = inst := by
    intro x l t i
    constructor
    · rintro ⟨addr', size', there, covered⟩
      obtain ⟨rfl, rfl, rfl, rfl, rfl⟩ := RaceEventType.hook_inj (Option.some.inj (here.symm.trans there))
      exact ⟨covered, rfl, rfl, rfl⟩
    · rintro ⟨covered, rfl, rfl, rfl⟩
      exact ⟨addr, size, here, covered⟩
  have kept : ∀ x, ¬ Frees unitSize tr x n := by
    rintro x ⟨e, there, frees⟩
    cases Option.some.inj (here.symm.trans there)
    cases k <;> exact frees
  have touched : ∀ x, Touched unitSize tr x (n + 1) = if x ∈ unitsOf unitSize addr size then
      Touches.add (Touched unitSize tr x n) k curr inst else Touched unitSize tr x n := by
    intro x
    funext l t i
    rw [eq_iff_iff, touched_succ, access]
    split
    · next covered => simp [kept, covered, Touches.add]
    · next apart => simp [kept, apart]
  obtain ⟨table, db, looped, entries, marked⟩ :=
    accessUnits_spec process (unitsOf unitSize addr size) (unitsOf_nodup _ _ _) a
  rw [beforeMem, inv.filter.filter_eq_false member covers, if_neg Bool.false_ne_true, inv.unit, looped]
  refine ⟨inv.unit, same ▸ inv.filter, fun x => ?_, fun i => ?_⟩
  · rw [entries, touched]
    split
    · exact (adds _ _ (inv.units x)).summarises
    · exact inv.units x
  · rw [marked, inv.marked, markedBy_succ]
    constructor
    · rintro (before | ⟨x, covered, now⟩)
      · exact Or.inl before
      · have sound := (adds _ _ (inv.units x)).sound i now
        exact Or.inr ⟨x, by rwa [touched, if_pos covered]⟩
    · rintro (before | ⟨x, shared, uses⟩)
      · exact Or.inl before
      · rw [touched] at shared uses
        split at shared
        · next covered =>
          rw [if_pos covered] at uses
          rcases (adds _ _ (inv.units x)).complete shared i uses with now | earlier
          · exact Or.inr ⟨x, covered, now⟩
          · exact Or.inl ⟨x, n, Nat.le_refl n, earlier⟩
        · next apart =>
          rw [if_neg apart] at uses
          exact Or.inl ⟨x, n, Nat.le_refl n, shared, uses⟩

/-- One hook of a conforming trace. -/
theorem RunInv.step (conforms : RegionsConform unitSize tr) (inv : RunInv unitSize tr n a)
    (here : tr[n]? = some e) : ∃ a', a.step e = some a' ∧ RunInv unitSize tr (n + 1) a' := by
  obtain ⟨admitted, inside⟩ := conforms n e here
  have regions := fun a' => inv.regions a' here
  have admits := inv.unit ▸ admitted
  cases e with
  | beforeMemRead curr inst addr size =>
    exact ⟨_, rfl, inv.access (k := .read) (fun P entry => Meta.read_adds) here inside⟩
  | beforeMemWrite curr inst addr size =>
    exact ⟨_, rfl, inv.access (k := .write) (fun P entry => Meta.write_adds) here inside⟩
  | imageLoad lowAddr highAddr dataStart dataSize bssStart bssSize =>
    obtain ⟨withData, withBss⟩ := allAdmitted_append.mp admitted
    obtain ⟨a₁, first, applies⟩ := allocSection_applies inv.filter withData
    obtain ⟨a₂, second, applies'⟩ := allocSection_applies applies.filter withBss
    refine ⟨a₂, ?_, regions a₂ (fun k => by cases k <;> nofun) (applies.append applies')⟩
    have loaded : lowAddr ≠ 0 ∧ highAddr ≠ 0 ∧ lowAddr < highAddr := inside
    rw [SharedInstAnalyzer.step, imageLoad, debugAssert_pos loaded]
    exact Option.bind_eq_some_iff.mpr ⟨(), rfl, Option.bind_eq_some_iff.mpr ⟨a₁, first, second⟩⟩
  | imageUnload lowAddr dataStart bssStart =>
    have skip : ∀ (b : SharedInstAnalyzer) addr,
        (if addr ≠ 0 then b.freeAddrRegion addr else b) = b.freeAddrRegion addr := by
      intro b addr
      by_cases null : addr = 0
      · subst null
        rfl
      · exact if_pos null
    have applies := freeAddrRegion_applies _ inv.filter ⟨admits.1, trivial⟩
    have applies' := freeAddrRegion_applies bssStart applies.filter
      (applies.unit ▸ ⟨admits.2.1, trivial⟩)
    rw [applies.unit] at applies'
    have both := applies.append applies'
    rw [inv.unit] at both
    refine ⟨_, ?_, regions _ (fun k => by cases k <;> nofun) both⟩
    have loaded : lowAddr ≠ 0 := inside
    rw [SharedInstAnalyzer.step, imageUnload, debugAssert_pos loaded]
    simp only [skip]
    rfl
  | afterMalloc size addr | afterValloc size addr | afterRealloc size addr
  | afterCalloc nmemb size addr =>
    obtain ⟨a', allocated, applies⟩ := allocAddrRegion_applies inv.filter admitted
    exact ⟨a', allocated, regions a' (fun k => by cases k <;> nofun) applies⟩
  | beforeRealloc addr | beforeFree addr =>
    have applies := freeAddrRegion_applies _ inv.filter admits
    rw [inv.unit] at applies
    exact ⟨_, rfl, regions _ (fun k => by cases k <;> nofun) applies⟩
  | _ => exact ⟨a, rfl, regions a (fun k => by cases k <;> nofun) (.nil inv.filter)⟩

end

/-- The accesses to unit `x` between two positions. -/
def During (unitSize : Address) (tr : List Hook) (x : Address) (lo hi : ℕ) : Touches := fun k t inst =>
  ∃ i, lo ≤ i ∧ i < hi ∧ Accesses unitSize tr k x i t inst

/-- In a lifetime of some unit, `inst` accessed it, and so did two threads and a write. -/
def SharedInst (unitSize : Address) (tr : List Hook) (inst : InstId) : Prop :=
  ∃ x lo hi, Lifetime unitSize tr x lo hi ∧ (During unitSize tr x lo hi).Shared ∧
    (During unitSize tr x lo hi).Uses inst

theorem markedBy_iff {unitSize : Address} {tr : List Hook} {inst : InstId} :
    MarkedBy unitSize tr tr.length inst ↔ SharedInst unitSize tr inst := by
  constructor
  · rintro ⟨x, m, bound, shared, uses⟩
    obtain ⟨lo, hi, lifetime, below, above⟩ : ∃ lo hi, Lifetime unitSize tr x lo hi ∧ lo ≤ m ∧ m ≤ hi :=
      exists_lifetime bound
    have within : ∀ k t inst, Touched unitSize tr x m k t inst →
        During unitSize tr x lo hi k t inst := by
      intro k t inst touch
      obtain ⟨i, after, before, access⟩ := (touched_iff lifetime below above).mp touch
      exact ⟨i, after, before.trans_le above, access⟩
    exact ⟨x, lo, hi, lifetime, shared.mono within, uses.mono within⟩
  · rintro ⟨x, lo, hi, lifetime, shared, uses⟩
    have within : ∀ k t inst, During unitSize tr x lo hi k t inst →
        Touched unitSize tr x hi k t inst := fun k t inst =>
      (touched_iff lifetime lifetime.bound.1 (Nat.le_refl hi)).mpr
    exact ⟨x, hi, lifetime.bound.2, Touches.Shared.mono within shared, Touches.Uses.mono within uses⟩

/-- The analyzer finishes, and the instructions it has marked are the shared ones. -/
theorem sharedInsts_exact {unitSize : Address} {tr : List Hook} (conforms : RegionsConform unitSize tr) :
    ∃ last, SharedInstAnalyzer.run { unitSize := unitSize } tr = some last ∧
      ∀ inst, last.sinstDb.shared inst = true ↔ SharedInst unitSize tr inst := by
  obtain ⟨last, ran, inv⟩ := Runs.foldlM_invariant (RunInv unitSize tr) tr
    (fun n a e here inv => inv.step conforms here) { unitSize := unitSize }
    { unit := rfl
      filter := .empty
      units := by simp [Summarises, Touched]
      marked := by
        intro inst
        constructor
        · intro marked
          simp [SharedInstDB.shared] at marked
        · rintro ⟨x, m, bound, -, k, t, i, before, -⟩
          omega }
  exact ⟨last, ran, fun inst => (inv.marked inst).trans markedBy_iff⟩

/-- Two threads read a block, it is released and allocated again, and one thread
writes it: nothing is shared. Then the other thread reads what was written. -/
def reuseTrace : List Hook :=
  [.afterMalloc 16 64, .beforeMemRead 1 10 64 8, .beforeMemRead 2 11 64 4, .beforeFree 64,
    .afterMalloc 8 64, .beforeMemWrite 2 12 68 4, .beforeMemWrite 2 13 64 4, .beforeMemRead 1 14 68 2]

theorem sharedInsts_exact_reuse : RegionsConform 4 reuseTrace ∧
    ∃ last, SharedInstAnalyzer.run { unitSize := 4 } reuseTrace = some last ∧
      ∀ inst, last.sinstDb.shared inst = true ↔ SharedInst 4 reuseTrace inst :=
  ⟨by decide +kernel, sharedInsts_exact (by decide +kernel)⟩

example : (SharedInstAnalyzer.run { unitSize := 4 } reuseTrace).map (·.sinstDb.tableProto) =
    some [12, 14] := by decide +kernel

end SharedInstAnalyzer
end Maple.Sinst
