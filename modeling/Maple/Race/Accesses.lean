import Maple.Core.Units
import Maple.Race.SyncOrder

/-! Detector runs over conforming traces. A detector class shows how its virtual
functions track an order (`Tracks`) and what its processing of one unit keeps
(`Analyses`); the run theorem then holds of every conforming trace. -/
namespace Maple.Race

def RaceEventType.hook : RaceEventType → ThreadId → InstId → Address → Address → Hook
  | .read => .beforeMemRead
  | .write => .beforeMemWrite

/-- Position `i` is an access of kind `k` to unit `x` by thread `t` with `inst`. The units of
an access are those that it overlaps (`accesses_iff`). -/
def Accesses (unitSize : Address) (tr : List Hook) (k : RaceEventType) (x : Address) (i : ℕ)
    (t : ThreadId) (inst : InstId) : Prop :=
  ∃ addr size, tr[i]? = some (k.hook t inst addr size) ∧ x ∈ unitsOf unitSize addr size

theorem RaceEventType.hook_inj {k l : RaceEventType} {t u : ThreadId} {inst inst' : InstId}
    {addr addr' size size' : Address} (same : k.hook t inst addr size = l.hook u inst' addr' size') :
    k = l ∧ t = u ∧ inst = inst' ∧ addr = addr' ∧ size = size' := by
  cases k <;> cases l <;> simp_all [RaceEventType.hook]

theorem Accesses.bound {unitSize : Address} {tr : List Hook} {k : RaceEventType} {x : Address} {i : ℕ}
    {t : ThreadId} {inst : InstId} (access : Accesses unitSize tr k x i t inst) : i < tr.length := by
  obtain ⟨_, _, here, _⟩ := access
  exact (List.getElem?_eq_some_iff.mp here).1

/-- A property of every unit that a hook accesses. -/
def Hook.ForUnits (unitSize : Address) (P : RaceEventType → ThreadId → Address → Prop) : Hook → Prop
  | .beforeMemRead curr _ addr size => ∀ x ∈ unitsOf unitSize addr size, P .read curr x
  | .beforeMemWrite curr _ addr size => ∀ x ∈ unitsOf unitSize addr size, P .write curr x
  | _ => True

instance (unitSize : Address) (P : RaceEventType → ThreadId → Address → Prop)
    [∀ k t x, Decidable (P k t x)] (e : Hook) : Decidable (e.ForUnits unitSize P) := by
  -- the instance search would enumerate all addresses
  induction e using Hook.casesOn <;> simp only [Hook.ForUnits] <;> first | exact List.decidableBAll _ _ | infer_instance

theorem Hook.ForUnits.unit {unitSize : Address} {P : RaceEventType → ThreadId → Address → Prop}
    {k : RaceEventType} {curr : ThreadId} {inst : InstId} {addr size x : Address}
    (holds : (k.hook curr inst addr size).ForUnits unitSize P) (member : x ∈ unitsOf unitSize addr size) :
    P k curr x := by
  cases k <;> exact holds x member

section
variable {unitSize : Address} {tr : List Hook} {k l : RaceEventType} {x y : Address} {i : ℕ}
  {t u : ThreadId} {inst inst' : InstId}

theorem Accesses.unique (first : Accesses unitSize tr k x i t inst)
    (second : Accesses unitSize tr l y i u inst') : k = l ∧ t = u ∧ inst = inst' := by
  obtain ⟨_, _, here, _⟩ := first
  obtain ⟨_, _, there, _⟩ := second
  obtain ⟨kinds, threads, insts, _⟩ :=
    RaceEventType.hook_inj (Option.some.inj (here.symm.trans there))
  exact ⟨kinds, threads, insts⟩

/-- An access is to the units that its bytes reach into, as long as its end can be rounded up. -/
theorem accesses_iff {width : ℕ} (power : unitSize.toNat = 2 ^ width)
    (rounds : ∀ addr size, tr[i]? = some (k.hook t inst addr size) → RoundsUp unitSize addr size) :
    Accesses unitSize tr k x i t inst ↔ ∃ addr size, tr[i]? = some (k.hook t inst addr size) ∧
      IsUnit unitSize x ∧ Overlaps unitSize x addr size := by
  refine exists_congr fun addr => exists_congr fun size => and_congr_right fun here => ?_
  exact mem_unitsOf_iff power (rounds addr size here)

end

@[simp] theorem thread_hook (k : RaceEventType) (t : ThreadId) (inst : InstId) (addr size : Address) :
    (k.hook t inst addr size).thread = some t := by cases k <;> rfl

@[simp] theorem Progress.next_hook (p : Progress) (k : RaceEventType) (t : ThreadId) (inst : InstId)
    (addr size : Address) : p.next (k.hook t inst addr size) = p := by cases k <;> rfl

@[simp] theorem Progress.admits_hook (p : Progress) (k : RaceEventType) (t : ThreadId) (inst : InstId)
    (addr size : Address) : p.Admits (k.hook t inst addr size) ↔ p.Runs t := by cases k <;> rfl

/-- Program, fork and join order, which every order on hooks here contains; an
access has no further edges. -/
structure HookOrder (order : Causality.Model Hook Channel) : Prop where
  own : ∀ {e t}, e.thread = some t → order.acquires e (.thread t) ∧ order.releases e (.thread t)
  accessAcquires : ∀ (k : RaceEventType) t inst addr size c,
    order.acquires (k.hook t inst addr size) c ↔ c = .thread t
  accessReleases : ∀ (k : RaceEventType) t inst addr size c,
    order.releases (k.hook t inst addr size) c ↔ c = .thread t
  startAcquires : ∀ curr parent c, order.acquires (.threadStart curr parent) c ↔
    c = .thread curr ∨ c = .thread parent
  startReleases : ∀ curr parent c, order.releases (.threadStart curr parent) c ↔ c = .thread curr
  joinAcquires : ∀ curr child c, order.acquires (.afterPthreadJoin curr child) c ↔
    c = .thread curr ∨ c = .thread child
  joinReleases : ∀ curr child c, order.releases (.afterPthreadJoin curr child) c ↔ c = .thread curr

theorem syncOrder_hooks : HookOrder syncOrder where
  own := fun {e t} acting => ⟨Or.inl ⟨t, acting, rfl⟩, Or.inl ⟨t, acting, rfl⟩⟩
  accessAcquires k t inst addr size c := by cases k <;> simp [syncOrder, RaceEventType.hook, Hook.thread]
  accessReleases k t inst addr size c := by cases k <;> simp [syncOrder, RaceEventType.hook, Hook.thread]
  startAcquires curr parent c := by simp [syncOrder, Hook.thread]
  startReleases curr parent c := by simp [syncOrder, Hook.thread]
  joinAcquires curr child c := by simp [syncOrder, Hook.thread]
  joinReleases curr child c := by simp [syncOrder, Hook.thread]

theorem forkJoinOrder_hooks : HookOrder forkJoinOrder where
  own := fun {e t} acting =>
    ⟨⟨Or.inl ⟨t, acting, rfl⟩, t, rfl⟩, ⟨Or.inl ⟨t, acting, rfl⟩, t, rfl⟩⟩
  accessAcquires k t inst addr size c := by
    simp only [forkJoinOrder, syncOrder_hooks.accessAcquires, and_iff_left_iff_imp]
    exact fun same => ⟨t, same⟩
  accessReleases k t inst addr size c := by
    simp only [forkJoinOrder, syncOrder_hooks.accessReleases, and_iff_left_iff_imp]
    exact fun same => ⟨t, same⟩
  startAcquires curr parent c := by
    simp only [forkJoinOrder, syncOrder_hooks.startAcquires, and_iff_left_iff_imp]
    exact fun same => same.elim (fun same => ⟨curr, same⟩) (fun same => ⟨parent, same⟩)
  startReleases curr parent c := by
    simp only [forkJoinOrder, syncOrder_hooks.startReleases, and_iff_left_iff_imp]
    exact fun same => ⟨curr, same⟩
  joinAcquires curr child c := by
    simp only [forkJoinOrder, syncOrder_hooks.joinAcquires, and_iff_left_iff_imp]
    exact fun same => same.elim (fun same => ⟨curr, same⟩) (fun same => ⟨child, same⟩)
  joinReleases curr child c := by
    simp only [forkJoinOrder, syncOrder_hooks.joinReleases, and_iff_left_iff_imp]
    exact fun same => ⟨curr, same⟩

section Order
variable {order : Causality.Model Hook Channel} {tr : List Hook} {i j n : ℕ} {t : ThreadId}

/-- Hooks of one thread are ordered as they come. -/
theorem HookOrder.hb_of_thread (hooks : HookOrder order) {d e : Hook} (first : tr[i]? = some d)
    (second : tr[j]? = some e) (acting : d.thread = some t) (same : e.thread = some t)
    (earlier : i < j) : order.HB tr i j :=
  .single ⟨earlier, d, e, .thread t, first, second, (hooks.own acting).2, (hooks.own same).1⟩

/-- An access is ordered after exactly what its thread knew. -/
theorem HookOrder.hb_access_iff (hooks : HookOrder order) {k : RaceEventType} {inst : InstId}
    {addr size : Address} (here : tr[n]? = some (k.hook t inst addr size)) :
    order.HB tr i n ↔ order.Known tr n (.thread t) i := by
  simp only [Causality.hb_iff_known here, hooks.accessAcquires, exists_eq_left]

theorem HookOrder.known_access (hooks : HookOrder order) {k : RaceEventType} {inst : InstId}
    {addr size : Address} (here : tr[n]? = some (k.hook t inst addr size)) (earlier : i ≠ n)
    (c : Channel) : order.Known tr (n + 1) c i ↔ order.Known tr n c i :=
  known_of_local here (hooks.accessAcquires k t inst addr size)
    (hooks.accessReleases k t inst addr size) earlier c

end Order

def Algorithm.process {G M : Type} (alg : Algorithm G M) : RaceEventType → DetectorBase G → ThreadId →
    Address → M → InstId → Option (M × List DbCall)
  | .read => alg.processRead
  | .write => alg.processWrite

/-- With every unit at most once, each one is processed on its own old value. -/
theorem accessLoop_spec {M : Type} (newMeta : M) (process : Address → M → Option (M × List DbCall))
    (Post : Address → M → Prop) (Report Due : Address → DbCall → Prop) (units : List Address)
    (distinct : units.Nodup) (table : OrdMap Address M)
    (each : ∀ x ∈ units, ∃ v out, process x (table[x]?.getD newMeta) = some (v, out) ∧ Post x v ∧
      (∀ call ∈ out, Report x call) ∧ ∀ call, Due x call → call ∈ out) :
    ∃ last outs, accessLoop newMeta process units table = some (last, outs) ∧
      (∀ x ∈ units, Post x (last[x]?.getD newMeta)) ∧ (∀ x ∉ units, last[x]? = table[x]?) ∧
      (∀ call ∈ outs, ∃ x ∈ units, Report x call) ∧
      ∀ x ∈ units, ∀ call, Due x call → call ∈ outs := by
  induction units generalizing table with
  | nil => exact ⟨table, [], rfl, by simp, by simp, by simp, by simp⟩
  | cons iaddr rest ih =>
    obtain ⟨absent, distinct⟩ := List.nodup_cons.mp distinct
    obtain ⟨⟨v, out, ran, post, report, due⟩, others⟩ := List.forall_mem_cons.mp each
    have kept : ∀ x ≠ iaddr, (table.insert iaddr v)[x]? = table[x]? := by
      intro x other
      rw [getElem?_insert_address, if_neg (fun same => other same.symm)]
    obtain ⟨last, outs, looped, posts, frame, reports, dues⟩ := ih distinct (table.insert iaddr v) (by
      intro x member
      rw [kept x (fun same => absent (same ▸ member))]
      exact others x member)
    refine ⟨last, out ++ outs, by simp [accessLoop, ran, looped], ?_, ?_, ?_, ?_⟩
    · intro x member
      rcases List.mem_cons.mp member with rfl | member
      · rw [frame x absent, getElem?_insert_address, if_pos rfl]
        exact post
      · exact posts x member
    · intro x outside
      rw [List.mem_cons, not_or] at outside
      rw [frame x outside.2, kept x outside.1]
    · intro call made
      rcases List.mem_append.mp made with made | made
      · exact ⟨iaddr, by simp, report call made⟩
      · obtain ⟨x, member, reported⟩ := reports call made
        exact ⟨x, List.mem_cons_of_mem _ member, reported⟩
    · intro x member call owed
      rcases List.mem_cons.mp member with rfl | member
      · exact List.mem_append_left _ (due call owed)
      · exact List.mem_append_right _ (dues x member call owed)

/-- The loop makes the calls of its rounds and no others. -/
theorem accessLoop_exact {M : Type} (newMeta : M) (process : Address → M → Option (M × List DbCall))
    (units : List Address) (distinct : units.Nodup) (table : OrdMap Address M)
    (each : ∀ x ∈ units, ∃ v out, process x (table[x]?.getD newMeta) = some (v, out)) :
    ∃ last outs, accessLoop newMeta process units table = some (last, outs) ∧
      (∀ x ∈ units, ∃ out, process x (table[x]?.getD newMeta) = some (last[x]?.getD newMeta, out)) ∧
      (∀ x ∉ units, last[x]? = table[x]?) ∧ ∀ call, call ∈ outs ↔ ∃ x ∈ units, ∃ v out,
        process x (table[x]?.getD newMeta) = some (v, out) ∧ call ∈ out := by
  let Made : Address → DbCall → Prop := fun x call =>
    ∃ v out, process x (table[x]?.getD newMeta) = some (v, out) ∧ call ∈ out
  obtain ⟨last, outs, ran, posts, frame, made, due⟩ := accessLoop_spec newMeta process
    (fun x v => ∃ out, process x (table[x]?.getD newMeta) = some (v, out)) Made Made units distinct
    table (by
      intro x member
      obtain ⟨v, out, ran⟩ := each x member
      refine ⟨v, out, ran, ⟨out, ran⟩, fun call called => ⟨v, out, ran, called⟩, ?_⟩
      rintro call ⟨v', out', ran', called⟩
      cases ran.symm.trans ran'
      exact called)
  exact ⟨last, outs, ran, posts, frame, fun call =>
    ⟨made call, fun ⟨x, member, owed⟩ => due x member call owed⟩⟩

/-- Freed units lose their metadata, and only freed metadata make calls. -/
theorem freeLoop_spec {V : Type} (processFree : V → List DbCall) (units : List Address)
    (table : OrdMap Address V) :
    (∀ x : Address, (freeLoop processFree units table).1[x]? = if x ∈ units then none else table[x]?) ∧
    ∀ call ∈ (freeLoop processFree units table).2, ∃ v, call ∈ processFree v := by
  induction units generalizing table with
  | nil => exact ⟨by simp [freeLoop], by simp [freeLoop]⟩
  | cons iaddr rest ih =>
    cases found : table[iaddr]? with
    | none =>
      obtain ⟨entries, calls⟩ := ih table
      refine ⟨fun x => ?_, by simpa [freeLoop, found] using calls⟩
      simp only [freeLoop, found, entries, List.mem_cons]
      by_cases same : x = iaddr
      · simp [same, found]
      · simp [same]
    | some freed =>
      obtain ⟨entries, calls⟩ := ih (table.erase iaddr)
      refine ⟨fun x => ?_, fun call made => ?_⟩
      · simp only [freeLoop, found, entries, getElem?_erase_address, List.mem_cons, eq_comm (a := iaddr)]
        by_cases same : x = iaddr <;> simp [same]
      · simp only [freeLoop, found, List.mem_append] at made
        exact made.elim (fun made => ⟨freed, made⟩) (calls call)

section Contract
variable {G M : Type} {Plain : List Hook → Prop}

/-- The part of a detector class that is about synchronisation. `opened` tells
from the progress of the trace whether the gate lets accesses through; a class that
does not count locks tracks `Plain` traces only. -/
structure Algorithm.Tracks (alg : Algorithm G M) (order : Causality.Model Hook Channel)
    (opened : Progress → Bool) (Own : Progress → G → Prop) (Plain : List Hook → Prop) : Prop where
  hooks : HookOrder order
  gate : ∀ {b : DetectorBase G} {p}, b.Counted p → alg.gate b = opened p
  start : ∀ {p own curr parent}, Own p own → Own (p.next (.threadStart curr parent)) own
  join : ∀ {tr n b epoch curr child}, tr[n]? = some (.afterPthreadJoin curr child) →
    (progressAt tr n).Admits (.afterPthreadJoin curr child) → SyncInv order tr n b epoch →
    Own (progressAt tr n) b.own → ∃ b', alg.afterPthreadJoin b curr child = some b' ∧
      SyncInv order tr (n + 1) b' epoch ∧ b.SameSettings b' ∧ Own (progressAt tr (n + 1)) b'.own
  lock : ∀ {tr n b epoch curr addr}, tr[n]? = some (.afterPthreadMutexLock curr addr) →
    (progressAt tr n).Admits (.afterPthreadMutexLock curr addr) → SyncInv order tr n b epoch →
    Own (progressAt tr n) b.own → ∃ b', alg.processLock
      { b with mutexMetaTable := ensureMeta {} b.mutexMetaTable addr } curr addr = some b' ∧
      SyncInv order tr (n + 1) b' epoch ∧ b.SameSettings b' ∧ Own (progressAt tr (n + 1)) b'.own
  unlock : ∀ {tr n b epoch curr addr}, Plain tr → tr[n]? = some (.beforePthreadMutexUnlock curr addr) →
    (progressAt tr n).Admits (.beforePthreadMutexUnlock curr addr) → SyncInv order tr n b epoch →
    Own (progressAt tr n) b.own → ∃ b', alg.processUnlock
      { b with mutexMetaTable := ensureMeta {} b.mutexMetaTable addr } curr addr = some b' ∧
      SyncInv order tr (n + 1) b' epoch ∧ b.SameSettings b' ∧ Own (progressAt tr (n + 1)) b'.own

/-- An access that the gate lets through. -/
def Processed (opened : Progress → Bool) (unitSize : Address) (tr : List Hook) (k : RaceEventType)
    (x : Address) (i : ℕ) (t : ThreadId) (inst : InstId) : Prop :=
  Accesses unitSize tr k x i t inst ∧ opened (progressAt tr i) = true

/-- What the processing of one unit keeps: `UnitInv` of the metadata; the calls
made satisfy `Report` and include those that are `Due`. `Cond` is a condition on
the steps of the run, if one is needed. -/
structure Algorithm.Analyses (alg : Algorithm G M) (order : Causality.Model Hook Channel)
    (opened : Progress → Bool) (Own : Progress → G → Prop) (unitSize : Address) (tr : List Hook)
    (Cond : Detector G M → Hook → Prop) (UnitInv : Stamps → ℕ → Address → M → Prop)
    (Report Due : ℕ → Address → DbCall → Prop) : Prop where
  blank : ∀ epoch x, UnitInv epoch 0 x alg.newMeta
  restamp : ∀ {epoch epoch' n x m}, (∀ i < n, epoch' i = epoch i) → UnitInv epoch n x m →
    UnitInv epoch' n x m
  skip : ∀ {epoch n x m}, (∀ k t inst, ¬ Processed opened unitSize tr k x n t inst) →
    UnitInv epoch n x m → UnitInv epoch (n + 1) x m
  process : ∀ {n} {d : Detector G M} {epoch k curr inst addr size x},
    tr[n]? = some (k.hook curr inst addr size) → x ∈ unitsOf unitSize addr size →
    opened (progressAt tr n) = true → SyncInv order tr (n + 1) d.toDetectorBase epoch →
    epoch n = some (curr, d.clockOf (.thread curr) curr) → (progressAt tr n).Runs curr →
    Own (progressAt tr n) d.own → Cond d (k.hook curr inst addr size) →
    UnitInv epoch n x (d.metaTable[x]?.getD alg.newMeta) →
    ∃ m out, alg.process k d.toDetectorBase curr x (d.metaTable[x]?.getD alg.newMeta) inst =
      some (m, out) ∧ UnitInv epoch (n + 1) x m ∧ (∀ call ∈ out, Report n x call) ∧
      ∀ call, Due n x call → call ∈ out

/-- The state before the first hook. -/
structure Detector.Fresh (d : Detector G M) : Prop where
  clocks : d.currVcMap = ∅
  mutexes : d.mutexMetaTable = ∅
  atomics : d.atomicMap = ∅
  metas : d.metaTable = ∅
  counts : d.threadStartC = 0 ∧ d.threadJoinC = 0

/-- Accesses are to regions that the filter lets through. -/
def Hook.Monitored (filter : RegionFilter) : Hook → Prop
  | .beforeMemRead _ _ addr _ | .beforeMemWrite _ _ addr _ => filter.filter addr = false
  | _ => True

instance (filter : RegionFilter) (e : Hook) : Decidable (e.Monitored filter) := by
  induction e using Hook.casesOn <;> simp only [Hook.Monitored] <;> infer_instance

def Monitored (filter : RegionFilter) (tr : List Hook) : Prop := ∀ e ∈ tr, e.Monitored filter

instance (filter : RegionFilter) (tr : List Hook) : Decidable (Monitored filter tr) :=
  inferInstanceAs (Decidable (∀ e ∈ tr, e.Monitored filter))

theorem Monitored.passes {filter : RegionFilter} {tr : List Hook} (monitored : Monitored filter tr)
    {n : ℕ} {k : RaceEventType} {t : ThreadId} {inst : InstId} {addr size : Address}
    (here : tr[n]? = some (k.hook t inst addr size)) : filter.filter addr = false := by
  have holds := monitored _ (List.mem_of_getElem? here)
  cases k <;> exact holds

structure RunInv (order : Causality.Model Hook Channel) (Own : Progress → G → Prop) (tr : List Hook)
    (UnitInv : Stamps → ℕ → Address → M → Prop) (newMeta : M) (start : Detector G M) (n : ℕ)
    (d : Detector G M) (epoch : Stamps) : Prop where
  sync : SyncInv order tr n d.toDetectorBase epoch
  settings : start.SameSettings d.toDetectorBase
  own : Own (progressAt tr n) d.own
  units : ∀ x, UnitInv epoch n x (d.metaTable[x]?.getD newMeta)

theorem syncInv_zero {order : Causality.Model Hook Channel} {tr : List Hook} {d : Detector G M}
    (fresh : d.Fresh) : SyncInv order tr 0 d.toDetectorBase (fun _ => none) := by
  have clocks : ∀ c u, d.clockOf c u = 0 := by
    intro c u
    cases c <;> simp [DetectorBase.clockOf, fresh.clocks, fresh.mutexes]
  refine ⟨⟨?_, ?_, ?_, ?_, ?_, ?_⟩, ?_, ?_, ?_, ?_, ?_, ?_⟩
  · exact fun stamp => by cases stamp
  · intro t h born
    simp [DetectorBase.view, progressAt] at born
  · intro t born
    simp [DetectorBase.view, progressAt] at born
  · exact fun _ h => clocks h _
  · exact fun {t} _ u => clocks (.thread t) u
  · exact fun stamp => by cases stamp
  · exact fun stamp => by cases stamp
  · intro t member
    simp [progressAt] at member
  · intro a t holds
    simp [progressAt] at holds
  · simp [fresh.atomics]
  · simp [progressAt]
  · exact ⟨by simp [fresh.counts.1, progressAt], by simp [fresh.counts.2, progressAt]⟩

variable {alg : Algorithm G M} {order : Causality.Model Hook Channel} {opened : Progress → Bool}
  {Own : Progress → G → Prop} {unitSize : Address} {tr : List Hook}
  {Cond : Detector G M → Hook → Prop} {UnitInv : Stamps → ℕ → Address → M → Prop}
  {Report Due : ℕ → Address → DbCall → Prop} {start d : Detector G M} {n : ℕ} {epoch : Stamps}

/-- An analysis that may leave out accesses: it keeps its invariant and owes no calls. -/
structure Blind (UnitInv : Stamps → ℕ → Address → M → Prop) (Due : ℕ → Address → DbCall → Prop) : Prop where
  skip : ∀ {epoch n x m}, UnitInv epoch n x m → UnitInv epoch (n + 1) x m
  due : ∀ n x call, ¬ Due n x call

/-- The calls of the hook at position `n`, gathered from the units it accesses. -/
structure Emits (opened : Progress → Bool) (unitSize : Address) (tr : List Hook)
    (Report Due : ℕ → Address → DbCall → Prop) (n : ℕ) (out : List DbCall) : Prop where
  reported : ∀ call ∈ out, ∃ k x t inst, Processed opened unitSize tr k x n t inst ∧ Report n x call
  due : ∀ {k x t inst}, Processed opened unitSize tr k x n t inst → ∀ call, Due n x call → call ∈ out

theorem not_accesses_of (unitSize : Address) {e : Hook} (here : tr[n]? = some e)
    (other : ∀ (k : RaceEventType) t inst addr size, e ≠ k.hook t inst addr size)
    (k : RaceEventType) (x : Address) (t : ThreadId) (inst : InstId) :
    ¬ Accesses unitSize tr k x n t inst := by
  rintro ⟨addr, size, there, _⟩
  exact other k t inst addr size (Option.some.inj (here.symm.trans there))

/-- A synchronisation hook leaves the metadata alone and makes no calls. -/
theorem RunInv.silent (analyses : alg.Analyses order opened Own unitSize tr Cond UnitInv Report Due)
    (inv : RunInv order Own tr UnitInv alg.newMeta start n d epoch) {e : Hook}
    (here : tr[n]? = some e)
    (other : ∀ (k : RaceEventType) t inst addr size, e ≠ k.hook t inst addr size)
    {b : Option (DetectorBase G)} {b' : DetectorBase G} (result : b = some b')
    (sync : SyncInv order tr (n + 1) b' epoch) (settings : d.SameSettings b')
    (own : Own (progressAt tr (n + 1)) b'.own) :
    ∃ next out, d.silent b = some (next, out) ∧
      (∃ epoch', RunInv order Own tr UnitInv alg.newMeta start (n + 1) next epoch') ∧
      Emits opened unitSize tr Report Due n out := by
  have unread := not_accesses_of unitSize here other
  refine ⟨d.onBase b', [], by simp [Detector.silent, result],
    ⟨epoch, sync, inv.settings.trans settings, own, fun x => ?_⟩, by simp, ?_⟩
  · exact analyses.skip (fun k t inst processed => unread k x t inst processed.1) (inv.units x)
  · exact fun processed => absurd processed.1 (unread _ _ _ _)

theorem step_hook (k : RaceEventType) (curr : ThreadId) (inst : InstId) (addr size : Address) :
    d.step alg (k.hook curr inst addr size) = d.beforeMem alg (alg.process k) curr inst addr size := by
  cases k <;> rfl

theorem RunInv.access (tracks : alg.Tracks order opened Own Plain)
    (analyses : alg.Analyses order opened Own start.unitSize tr Cond UnitInv Report Due)
    (inv : RunInv order Own tr UnitInv alg.newMeta start n d epoch)
    {k : RaceEventType} {curr : ThreadId} {inst : InstId} {addr size : Address}
    (cond : Cond d (k.hook curr inst addr size)) (here : tr[n]? = some (k.hook curr inst addr size))
    (runs : (progressAt tr n).Runs curr) (sees : Monitored start.filter tr ∨ Blind UnitInv Due) :
    ∃ next out, d.step alg (k.hook curr inst addr size) = some (next, out) ∧
      (∃ epoch', RunInv order Own tr UnitInv alg.newMeta start (n + 1) next epoch') ∧
      Emits opened start.unitSize tr Report Due n out := by
  have next : progressAt tr (n + 1) = progressAt tr n := by simp [progressAt_succ here]
  have gate := tracks.gate inv.sync.counted
  have sync := inv.sync.access here runs (tracks.hooks.accessAcquires k curr inst addr size)
    (tracks.hooks.accessReleases k curr inst addr size) (by simp)
  let epoch' := Function.update epoch n (some (curr, d.clockOf (.thread curr) curr))
  have stamp : epoch' n = some (curr, d.clockOf (.thread curr) curr) := Function.update_self ..
  have units : ∀ x, UnitInv epoch' n x (d.metaTable[x]?.getD alg.newMeta) := fun x =>
    analyses.restamp (fun i below => Function.update_of_ne below.ne _ _) (inv.units x)
  have own : Own (progressAt tr (n + 1)) d.own := by rw [next]; exact inv.own
  have touched : ∀ {l x t i}, Processed opened start.unitSize tr l x n t i →
      x ∈ unitsOf start.unitSize addr size := by
    rintro l x t i ⟨⟨_, _, there, member⟩, _⟩
    obtain ⟨_, _, _, rfl, rfl⟩ := RaceEventType.hook_inj (Option.some.inj (here.symm.trans there))
    exact member
  rw [step_hook, Detector.beforeMem]
  by_cases entered : opened (progressAt tr n) = true
  · by_cases passes : d.filter.filter addr = false
    · have looked : Detector.monitored alg d.toDetectorBase curr addr = true := by
        simp [Detector.monitored, passes, inv.sync.quiet, gate, entered]
      obtain ⟨table, outs, looped, posts, frame, reports, dues⟩ := accessLoop_spec alg.newMeta
        (fun iaddr accessed => alg.process k d.toDetectorBase curr iaddr accessed inst)
        (UnitInv epoch' (n + 1)) (Report n) (Due n) (unitsOf d.unitSize addr size) (unitsOf_nodup _ _ _) d.metaTable (by
          intro x member
          rw [inv.settings.unitSize] at member
          exact analyses.process here member entered sync stamp runs inv.own cond (units x))
      refine ⟨{ d with metaTable := table }, outs, by simp [looked, looped],
        ⟨epoch', sync, inv.settings, own, fun x => ?_⟩, fun call made => ?_, fun processed => ?_⟩
      · by_cases member : x ∈ unitsOf d.unitSize addr size
        · exact posts x member
        · simp only [frame x member]
          rw [inv.settings.unitSize] at member
          exact analyses.skip (fun _ _ _ processed => member (touched processed)) (units x)
      · obtain ⟨x, member, report⟩ := reports call made
        rw [inv.settings.unitSize] at member
        exact ⟨k, x, curr, inst, ⟨⟨addr, size, here, member⟩, entered⟩, report⟩
      · rw [inv.settings.unitSize] at dues
        exact dues _ (touched processed)
    · have blind := sees.resolve_left fun monitored =>
        passes (by rw [inv.settings.filter]; exact monitored.passes here)
      have filtered : Detector.monitored alg d.toDetectorBase curr addr = false := by
        simp [Detector.monitored, passes]
      refine ⟨d, [], by simp [filtered],
        ⟨epoch', sync, inv.settings, own, fun x => blind.skip (units x)⟩, by simp, ?_⟩
      exact fun _ call due => absurd due (blind.due _ _ call)
  · have closed : Detector.monitored alg d.toDetectorBase curr addr = false := by
      simp [Detector.monitored, gate, entered]
    refine ⟨d, [], by simp [closed], ⟨epoch', sync, inv.settings, own, fun x => ?_⟩, by simp, ?_⟩
    · exact analyses.skip (fun _ _ _ processed => entered processed.2) (units x)
    · exact fun processed => absurd processed.2 entered

/-- One hook of a conforming trace. -/
theorem RunInv.step (tracks : alg.Tracks order opened Own Plain)
    (analyses : alg.Analyses order opened Own start.unitSize tr Cond UnitInv Report Due)
    (sees : Monitored start.filter tr ∨ Blind UnitInv Due)
    (inv : RunInv order Own tr UnitInv alg.newMeta start n d epoch) (plain : Plain tr) {e : Hook}
    (cond : Cond d e) (here : tr[n]? = some e) (admitted : (progressAt tr n).Admits e)
    (aligned : e.Aligned start.unitSize) :
    ∃ next out, d.step alg e = some (next, out) ∧
      (∃ epoch', RunInv order Own tr UnitInv alg.newMeta start (n + 1) next epoch') ∧
      Emits opened start.unitSize tr Report Due n out := by
  have isAligned : ∀ {addr}, unitDownAlign addr start.unitSize = addr →
      d.isAligned addr := fun holds => by rwa [DetectorBase.isAligned, inv.settings.unitSize]
  cases e with
  | threadStart curr parent =>
    obtain ⟨b', result, sync, settings, own⟩ := inv.sync.threadStart here admitted
      (tracks.hooks.startAcquires curr parent) (tracks.hooks.startReleases curr parent)
    refine inv.silent analyses here (fun k => by cases k <;> simp [RaceEventType.hook]) result sync settings ?_
    rw [progressAt_succ here, own]
    exact tracks.start inv.own
  | afterPthreadJoin curr child =>
    obtain ⟨b', result, sync, settings, own⟩ := tracks.join here admitted inv.sync inv.own
    exact inv.silent analyses here (fun k => by cases k <;> simp [RaceEventType.hook]) result sync settings own
  | afterPthreadMutexLock curr addr =>
    obtain ⟨b', result, sync, settings, own⟩ := tracks.lock here admitted inv.sync inv.own
    refine inv.silent analyses here (fun k => by cases k <;> simp [RaceEventType.hook]) ?_ sync settings own
    simp [DetectorBase.onHook, DetectorBase.afterPthreadMutexLock, debugAssert_pos (isAligned aligned), result]
  | beforePthreadMutexUnlock curr addr =>
    obtain ⟨b', result, sync, settings, own⟩ := tracks.unlock plain here admitted inv.sync inv.own
    refine inv.silent analyses here (fun k => by cases k <;> simp [RaceEventType.hook]) ?_ sync settings own
    simp [DetectorBase.onHook, DetectorBase.beforePthreadMutexUnlock, debugAssert_pos (isAligned aligned), result]
  | beforeMemRead curr inst addr size =>
    exact inv.access (k := .read) tracks analyses cond here admitted sees
  | beforeMemWrite curr inst addr size =>
    exact inv.access (k := .write) tracks analyses cond here admitted sees
  | _ => exact admitted.elim

/-- The invariant in every state that a run gets to. -/
theorem Algorithm.Analyses.reached (start : Detector G M) (tracks : alg.Tracks order opened Own Plain)
    (analyses : alg.Analyses order opened Own start.unitSize tr Cond UnitInv Report Due)
    (conforms : Conforms start.unitSize tr) (plain : Plain tr) (sees : Monitored start.filter tr ∨ Blind UnitInv Due)
    (fresh : start.Fresh) (own : Own {} start.own) (always : ∀ d e, Cond d e) {before : List (List DbCall)}
    (bound : n ≤ tr.length) (ran : Detector.run alg start (tr.take n) = some (d, before)) :
    ∃ epoch, RunInv order Own tr UnitInv alg.newMeta start n d epoch := by
  refine Runs.run_take (fun n d => ∃ epoch, RunInv order Own tr UnitInv alg.newMeta start n d epoch)
    ⟨fun _ => none, syncInv_zero fresh, ⟨rfl, rfl, rfl⟩, own, fun x => ?_⟩ ?_ bound ran
  · simpa [fresh.metas] using analyses.blank _ x
  · rintro n d e next out here ⟨epoch, inv⟩ stepped
    obtain ⟨next', out', stepped', kept, _⟩ :=
      inv.step tracks analyses sees plain (always d e) here
        (conforms.admitted n e here) (conforms.aligned e (List.mem_of_getElem? here))
    cases stepped.symm.trans stepped'
    exact kept

/-- The run theorem of detectors, which may be blind to some accesses. -/
theorem Algorithm.Analyses.run_of (start : Detector G M) (tracks : alg.Tracks order opened Own Plain)
    (analyses : alg.Analyses order opened Own start.unitSize tr Cond UnitInv Report Due)
    (conforms : Conforms start.unitSize tr) (plain : Plain tr) (sees : Monitored start.filter tr ∨ Blind UnitInv Due)
    (fresh : start.Fresh) (own : Own {} start.own)
    (along : Runs.Along (Detector.step alg) Cond start tr) :
    ∃ last outs, Detector.run alg start tr = some (last, outs) ∧ outs.length = tr.length ∧
      (∃ epoch, RunInv order Own tr UnitInv alg.newMeta start tr.length last epoch) ∧
      ∀ n out, outs[n]? = some out → Emits opened start.unitSize tr Report Due n out := by
  obtain ⟨last, outs, ran, ⟨inv, _⟩, length, good⟩ := Runs.run_invariant
    (fun n d => (∃ epoch, RunInv order Own tr UnitInv alg.newMeta start n d epoch) ∧
      ∃ outs, Detector.run alg start (tr.take n) = some (d, outs))
    (fun n out => Emits opened start.unitSize tr Report Due n out) tr (by
      rintro n d e here ⟨⟨epoch, inv⟩, outs, reached⟩
      obtain ⟨next, out, stepped, inv', reports⟩ :=
        inv.step tracks analyses sees plain (Runs.along_at along reached here) here
          (conforms.admitted n e here) (conforms.aligned e (List.mem_of_getElem? here))
      refine ⟨next, out, stepped, ⟨inv', outs ++ [out], ?_⟩, reports⟩
      rw [List.take_add_one, here]
      exact Runs.run_append reached (Runs.run_cons stepped rfl)) start
    ⟨⟨fun _ => none, syncInv_zero fresh, ⟨rfl, rfl, rfl⟩, own, fun x => by
      simpa [fresh.metas] using analyses.blank _ x⟩, [], rfl⟩
  exact ⟨last, outs, ran, length, inv, good⟩

/-- The run theorem of detectors. -/
theorem Algorithm.Analyses.run (start : Detector G M) (tracks : alg.Tracks order opened Own Plain)
    (analyses : alg.Analyses order opened Own start.unitSize tr Cond UnitInv Report Due)
    (conforms : Conforms start.unitSize tr) (plain : Plain tr) (monitored : Monitored start.filter tr)
    (fresh : start.Fresh) (own : Own {} start.own)
    (along : Runs.Along (Detector.step alg) Cond start tr) :
    ∃ last outs, Detector.run alg start tr = some (last, outs) ∧ outs.length = tr.length ∧
      (∃ epoch, RunInv order Own tr UnitInv alg.newMeta start tr.length last epoch) ∧
      ∀ n out, outs[n]? = some out → Emits opened start.unitSize tr Report Due n out :=
  analyses.run_of start tracks conforms plain (Or.inl monitored) fresh own along

end Contract
end Maple.Race
