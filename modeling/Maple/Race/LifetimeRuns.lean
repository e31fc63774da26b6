import Maple.Race.LifetimeState

/-! Runs of Djit over traces with allocations and releases: no report and no clock
crosses the end of a lifetime. -/
namespace Maple.Race

/-- Position `n` releases a region that reaches into unit `x`. -/
def Ends (unitSize : Address) (tr : List Hook) (x : Address) (n : ℕ) : Prop :=
  ∃ e, tr[n]? = some e ∧ ∃ r ∈ liveAt tr n, .free r.addr ∈ e.regionOps ∧ Overlaps unitSize x r.addr r.size

/-- Regions as in every conforming trace; the last unit of the address space is
not allocated. A build without assertions relies on aligned objects. -/
structure LifetimesConform (debug : Bool) (unitSize : Address) (tr : List Hook) : Prop where
  regions : RegionsConform unitSize tr
  rounds : ∀ (n : ℕ) e, tr[n]? = some e → ∀ r ∈ liveAt tr n, RoundsUp unitSize r.addr r.size
  aligned : debug = false → ∀ e ∈ tr, e.SyncAligned unitSize

theorem lifetimesConform_iff (debug : Bool) (unitSize : Address) (tr : List Hook) :
    LifetimesConform debug unitSize tr ↔ RegionsConform unitSize tr ∧
      (∀ n : Fin tr.length, ∀ r ∈ liveAt tr n, RoundsUp unitSize r.addr r.size) ∧
      (debug = false → ∀ e ∈ tr, e.SyncAligned unitSize) := by
  constructor
  · rintro ⟨regions, rounds, aligned⟩
    exact ⟨regions, fun n => rounds n _ (List.getElem?_eq_getElem n.isLt), aligned⟩
  · rintro ⟨regions, rounds, aligned⟩
    refine ⟨regions, fun n e here => ?_, aligned⟩
    obtain ⟨bound, -⟩ := List.getElem?_eq_some_iff.mp here
    exact rounds ⟨n, bound⟩

instance (debug : Bool) (unitSize : Address) (tr : List Hook) :
    Decidable (LifetimesConform debug unitSize tr) :=
  decidable_of_iff _ (lifetimesConform_iff debug unitSize tr).symm

/-- The two accesses of a report are to the same lifetime of the reported unit. -/
def SameLifetime (unitSize : Address) (tr : List Hook) (n : ℕ) (r : RaceReport) : Prop :=
  Accesses unitSize tr r.p1 r.addr n r.t1 r.i1 ∧ ∃ i < n, Accesses unitSize tr r.p0 r.addr i r.t0 r.i0 ∧
    ∀ m, i ≤ m → m ≤ n → ¬ Ends unitSize tr r.addr m

section Runs
variable (debug : Bool) (unitSize : Address) (trackRacyInst : Bool) (tr : List Hook)

def djitStart : Detector Unit DjitMeta := { unitSize, trackRacyInst, own := () }

/-- The state behind the first `n` hooks. -/
def DjitAt (n : ℕ) (d : Detector Unit DjitMeta) : Prop :=
  Runs.At (Detector.stepIn debug djit) (djitStart unitSize trackRacyInst) tr n d

/-- A clock that a thread had when it last stored it with the object at `x`, or its
next one, in the lifetime of `x` that lasts until `n`. -/
def Source (n : ℕ) (kind : SyncObject) (x : Address) (c : VectorClock) : Prop :=
  ∃ m < n, ∃ e u d v, tr[m]? = some e ∧ e.Publishes kind x u ∧ DjitAt debug unitSize trackRacyInst tr m d ∧
    d.currVcMap[u]? = some v ∧ (c = v ∨ c = v.increment u) ∧
    ∀ k, m ≤ k → k < n → ¬ Ends unitSize tr x k

/-- An access of the lifetime of `x` that lasts until `n`. -/
def Used (n : ℕ) (k : RaceEventType) (x : Address) (t : ThreadId) (inst : InstId) : Prop :=
  ∃ i < n, Accesses unitSize tr k x i t inst ∧ ∀ m, i ≤ m → m < n → ¬ Ends unitSize tr x m

/-- What thread `t` gains from hook `e` is from this lifetime of the hook's objects. -/
def GainsWithin (n : ℕ) (e : Hook) (d d' : Detector Unit DjitMeta) : Prop :=
  ∀ t v, (∃ kind x, e.Acquires kind x t) → d.currVcMap[t]? = some v →
    ∃ v', (d'.currVcMap[t]? = some v' ∨ d'.currVcMap[t]? = some (v'.increment t)) ∧
      Gains (fun c => ∃ kind x, e.Acquires kind x t ∧ Source debug unitSize trackRacyInst tr n kind x c) v v'

structure LifetimeInv (n : ℕ) (d : Detector Unit DjitMeta) : Prop where
  unit : d.unitSize = unitSize
  filter : d.filter.Tracks (liveAt tr n)
  state : StateHolds unitSize (Source debug unitSize trackRacyInst tr n) (Used unitSize tr n) d

end Runs

section
variable {debug : Bool} {unitSize : Address} {trackRacyInst : Bool} {tr : List Hook} {n k : ℕ} {e : Hook}
  {d d' : Detector Unit DjitMeta} {x addr : Address} {live : List Region}

theorem Source.bump {kind : SyncObject} {c : VectorClock} (source : Source debug unitSize trackRacyInst tr n kind x c)
    (kept : ¬ Ends unitSize tr x n) : Source debug unitSize trackRacyInst tr (n + 1) kind x c := by
  obtain ⟨m, before, e, u, d, v, here, publishes, reached, found, same, still⟩ := source
  refine ⟨m, Nat.lt_succ_of_lt before, e, u, d, v, here, publishes, reached, found, same, fun k after below => ?_⟩
  rcases Nat.lt_succ_iff_lt_or_eq.mp below with below | rfl
  · exact still k after below
  · exact kept

theorem Used.bump {l : RaceEventType} {t : ThreadId} {inst : InstId} (used : Used unitSize tr n l x t inst)
    (kept : ¬ Ends unitSize tr x n) : Used unitSize tr (n + 1) l x t inst := by
  obtain ⟨i, before, access, still⟩ := used
  refine ⟨i, Nat.lt_succ_of_lt before, access, fun m after below => ?_⟩
  rcases Nat.lt_succ_iff_lt_or_eq.mp below with below | rfl
  · exact still m after below
  · exact kept

/-- A hook that releases nothing ends no lifetime. -/
theorem not_ends_of (here : tr[n]? = some e) (keeps : ∀ addr, .free addr ∉ e.regionOps) (x : Address) :
    ¬ Ends unitSize tr x n := by
  rintro ⟨e', there, r, -, frees, -⟩
  cases here.symm.trans there
  exact keeps _ frees

theorem LifetimeInv.bump (holds : StateHolds unitSize (Source debug unitSize trackRacyInst tr n) (Used unitSize tr n) d)
    (here : tr[n]? = some e) (keeps : ∀ addr, .free addr ∉ e.regionOps) :
    StateHolds unitSize (Source debug unitSize trackRacyInst tr (n + 1)) (Used unitSize tr (n + 1)) d :=
  holds.mono (fun _ x _ source => source.bump (not_ends_of here keeps x))
    fun _ x _ _ used => used.bump (not_ends_of here keeps x)

/-- Hooks that leave tables, filter and unit size alone. -/
theorem LifetimeInv.quiet (inv : LifetimeInv debug unitSize trackRacyInst tr n d) (here : tr[n]? = some e)
    (keeps : e.regionOps = []) {b : DetectorBase Unit} (settings : d.SameSettings b)
    (sync : SyncHolds unitSize (Source debug unitSize trackRacyInst tr (n + 1)) b) :
    LifetimeInv debug unitSize trackRacyInst tr (n + 1) (d.onBase b) where
  unit := settings.unitSize.trans inv.unit
  filter := by
    rw [liveAt_succ here, Hook.live, keeps]
    exact settings.filter ▸ inv.filter
  state := (LifetimeInv.bump inv.state here fun _ => keeps ▸ List.not_mem_nil).onBase sync

/-- The same for hooks that may add to the filter. -/
theorem LifetimeInv.grow (inv : LifetimeInv debug unitSize trackRacyInst tr n d) (here : tr[n]? = some e)
    (keeps : ∀ addr, .free addr ∉ e.regionOps) {b : DetectorBase Unit} (unit : b.unitSize = d.unitSize)
    (filter : b.filter.Tracks (e.live (liveAt tr n))) (mutex : b.mutexMetaTable = d.mutexMetaTable)
    (cond : b.condMetaTable = d.condMetaTable) (barrier : b.barrierMetaTable = d.barrierMetaTable) :
    LifetimeInv debug unitSize trackRacyInst tr (n + 1) (d.onBase b) where
  unit := unit.trans inv.unit
  filter := liveAt_succ here ▸ filter
  state := by
    have bumped := LifetimeInv.bump inv.state here keeps
    exact bumped.onBase (bumped.sync.of_eq mutex cond barrier)

theorem LifetimeInv.alloc (inv : LifetimeInv debug unitSize trackRacyInst tr n d) {size : Address}
    (here : tr[n]? = some e) (ops : e.regionOps = [.alloc ⟨addr, size⟩])
    (admitted : AllAdmitted unitSize (liveAt tr n) e.regionOps) {b : DetectorBase Unit}
    (ran : d.allocAddrRegionIn debug addr size = some b) :
    LifetimeInv debug unitSize trackRacyInst tr (n + 1) (d.onBase b) := by
  obtain ⟨-, rfl⟩ := DetectorBase.allocAddrRegionIn_eq_some.mp ran
  refine inv.grow here (by simp [ops]) rfl ?_ rfl rfl rfl
  rw [ops] at admitted
  rw [Hook.live, ops]
  exact inv.filter.addRegion admitted.1

theorem tracks_allocSection {b b' : DetectorBase Unit} {start size : Address} (tracks : b.filter.Tracks live)
    (admitted : AllAdmitted unitSize live (sectionOps start size))
    (ran : b.allocSectionIn debug start size = some b') :
    b'.filter.Tracks ((sectionOps start size).foldl RegionOp.apply live) ∧ b' = { b with filter := b'.filter } := by
  unfold DetectorBase.allocSectionIn at ran
  unfold sectionOps at admitted ⊢
  split at ran
  · next present =>
    rw [if_pos present] at admitted ⊢
    obtain ⟨-, rfl⟩ := DetectorBase.allocAddrRegionIn_eq_some.mp ran
    exact ⟨tracks.addRegion admitted.1, rfl⟩
  · next none =>
    cases ran
    rw [if_neg none]
    exact ⟨tracks, rfl⟩

theorem LifetimeInv.imageLoad (inv : LifetimeInv debug unitSize trackRacyInst tr n d)
    {lowAddr highAddr dataStart dataSize bssStart bssSize : Address}
    (here : tr[n]? = some (.imageLoad lowAddr highAddr dataStart dataSize bssStart bssSize))
    (admitted : AllAdmitted unitSize (liveAt tr n) (sectionOps dataStart dataSize ++ sectionOps bssStart bssSize))
    {b : DetectorBase Unit}
    (ran : d.imageLoadIn debug lowAddr highAddr dataStart dataSize bssStart bssSize = some b) :
    LifetimeInv debug unitSize trackRacyInst tr (n + 1) (d.onBase b) := by
  have keeps : ∀ start size addr, RegionOp.free addr ∉ sectionOps start size := by
    intro start size addr
    unfold sectionOps
    split <;> simp
  obtain ⟨withData, first, second⟩ := Option.bind_eq_some_iff.mp (bind_assertIn ran)
  obtain ⟨data, bss⟩ := allAdmitted_append.mp admitted
  obtain ⟨tracks, same⟩ := tracks_allocSection inv.filter data first
  obtain ⟨tracks', same'⟩ := tracks_allocSection tracks bss second
  rw [← List.foldl_append] at tracks'
  rw [same] at same'
  refine inv.grow here ?_ (by rw [same']) tracks' (by rw [same']) (by rw [same']) (by rw [same'])
  intro addr member
  rcases List.mem_append.mp member with member | member
  · exact keeps _ _ _ member
  · exact keeps _ _ _ member

theorem LifetimeInv.quietBase (inv : LifetimeInv debug unitSize trackRacyInst tr n d) (here : tr[n]? = some e)
    (keeps : e.regionOps = []) {b : DetectorBase Unit} (settings : d.SameSettings b)
    (mutex : b.mutexMetaTable = d.mutexMetaTable) (cond : b.condMetaTable = d.condMetaTable)
    (barrier : b.barrierMetaTable = d.barrierMetaTable) :
    LifetimeInv debug unitSize trackRacyInst tr (n + 1) (d.onBase b) :=
  inv.quiet here keeps settings
    ((LifetimeInv.bump inv.state here fun _ => keeps ▸ List.not_mem_nil).sync.of_eq mutex cond barrier)

/-- No region of `live` that starts at `addr` reaches into `x`. -/
def Clear (unitSize : Address) (live : List Region) (addr x : Address) : Prop :=
  ∀ r ∈ live, r.addr = addr → ¬ Overlaps unitSize x r.addr r.size

theorem freeAddrRegion_holds {p : ℕ} (power : unitSize.toNat = 2 ^ p) (tracks : d.filter.Tracks live)
    (unit : d.unitSize = unitSize) (rounds : ∀ r ∈ live, RoundsUp unitSize r.addr r.size)
    (admitted : (RegionOp.free addr).Admitted unitSize live)
    {S : SyncObject → Address → VectorClock → Prop} {A : RaceEventType → Address → ThreadId → InstId → Prop}
    (holds : StateHolds unitSize S A d) :
    StateHolds unitSize (fun kind x c => S kind x c ∧ Clear unitSize live addr x)
        (fun k x t i => A k x t i ∧ Clear unitSize live addr x) (d.freeAddrRegion djit addr).1 ∧
      (d.freeAddrRegion djit addr).1.filter.Tracks ((RegionOp.free addr).apply live) := by
  by_cases null : addr = 0
  · have nothing : ∀ r ∈ live, r.addr ≠ addr := fun r member same => (tracks.fits r member).1 (same.trans null)
    refine ⟨holds.freeAddrRegion _ fun x _ _ r member same => absurd same (nothing r member), ?_⟩
    have kept : (RegionOp.free addr).apply live = live :=
      List.filter_eq_self.mpr fun r member => by simpa using nothing r member
    rw [Detector.filter_freeAddrRegion, kept, null]
    simpa [RegionFilter.removeRegion] using tracks
  · obtain ⟨removed, units⟩ := tracks.removeRegion admitted null
    refine ⟨holds.freeAddrRegion _ fun x isUnit outside r member same overlaps => ?_, ?_⟩
    · rw [unit] at outside
      have covered := (mem_unitsOf_iff power (rounds r member)).mpr ⟨isUnit, overlaps⟩
      exact outside.elim null fun apart => apart ((units x).mpr ⟨r, member, same, same ▸ covered⟩)
    · rw [Detector.filter_freeAddrRegion]
      exact removed

/-- `BeforeFree` and `BeforeRealloc`. -/
theorem LifetimeInv.free {p : ℕ} (power : unitSize.toNat = 2 ^ p)
    (inv : LifetimeInv debug unitSize trackRacyInst tr n d) (here : tr[n]? = some e)
    (ops : e.regionOps = [.free addr]) (admitted : AllAdmitted unitSize (liveAt tr n) e.regionOps)
    (rounds : ∀ r ∈ liveAt tr n, RoundsUp unitSize r.addr r.size) :
    LifetimeInv debug unitSize trackRacyInst tr (n + 1) (d.freeAddrRegion djit addr).1 := by
  rw [ops] at admitted
  obtain ⟨holds, tracks⟩ := freeAddrRegion_holds power inv.filter inv.unit rounds admitted.1 inv.state
  have kept : ∀ x, Clear unitSize (liveAt tr n) addr x → ¬ Ends unitSize tr x n := by
    rintro x clear ⟨e', there, r, member, frees, overlaps⟩
    cases here.symm.trans there
    rw [ops, List.mem_singleton] at frees
    exact clear r member (by cases frees; rfl) overlaps
  refine ⟨(Detector.unitSize_freeAddrRegion _ _ _).trans inv.unit, ?_, ?_⟩
  · rw [liveAt_succ here, Hook.live, ops]
    exact tracks
  · exact holds.mono (fun _ x _ source => source.1.bump (kept x source.2))
      fun _ x _ _ used => used.1.bump (kept x used.2)

theorem LifetimeInv.imageUnload {p : ℕ} (power : unitSize.toNat = 2 ^ p)
    (inv : LifetimeInv debug unitSize trackRacyInst tr n d) {lowAddr dataStart bssStart : Address}
    (here : tr[n]? = some (.imageUnload lowAddr dataStart bssStart))
    (admitted : AllAdmitted unitSize (liveAt tr n) [.free dataStart, .free bssStart])
    (rounds : ∀ r ∈ liveAt tr n, RoundsUp unitSize r.addr r.size) :
    LifetimeInv debug unitSize trackRacyInst tr (n + 1)
      ((d.freeAddrRegion djit dataStart).1.freeAddrRegion djit bssStart).1 := by
  obtain ⟨data, bss, -⟩ := admitted
  obtain ⟨holds, tracks⟩ := freeAddrRegion_holds power inv.filter inv.unit rounds data inv.state
  have unit := (Detector.unitSize_freeAddrRegion djit d dataStart).trans inv.unit
  obtain ⟨holds', tracks'⟩ := freeAddrRegion_holds power tracks unit
    (fun r member => rounds r (List.mem_filter.mp member).1) bss holds
  have kept : ∀ x, Clear unitSize (liveAt tr n) dataStart x →
      Clear unitSize ((RegionOp.free dataStart).apply (liveAt tr n)) bssStart x → ¬ Ends unitSize tr x n := by
    rintro x first second ⟨e', there, r, member, frees, overlaps⟩
    cases here.symm.trans there
    by_cases same : r.addr = dataStart
    · exact first r member same overlaps
    · have starts : r.addr = bssStart := by simpa [Hook.regionOps, same] using frees
      exact second r (List.mem_filter.mpr ⟨member, by simpa using same⟩) starts overlaps
  refine ⟨(Detector.unitSize_freeAddrRegion _ _ _).trans unit, ?_, ?_⟩
  · rw [liveAt_succ here]
    exact tracks'
  · exact holds'.mono (fun _ x _ source => source.1.1.bump (kept x source.1.2 source.2))
      fun _ x _ _ used => used.1.1.bump (kept x used.1.2 used.2)

/-- An access, and what it reports. -/
theorem LifetimeInv.access {p : ℕ} (power : unitSize.toNat = 2 ^ p)
    (inv : LifetimeInv debug unitSize trackRacyInst tr n d) {l : RaceEventType} {curr : ThreadId}
    {inst : InstId} {size : Address} {out : List DbCall} (here : tr[n]? = some (l.hook curr inst addr size))
    (rounds : RoundsUp unitSize addr size)
    (ran : d.beforeMem djit (djit.process l) curr inst addr size = some (d', out)) :
    LifetimeInv debug unitSize trackRacyInst tr (n + 1) d' ∧
      ∀ r, .createRace r ∈ out → SameLifetime unitSize tr n r := by
  have none : (l.hook curr inst addr size).regionOps = [] := by cases l <;> rfl
  have keeps : ∀ x, ¬ Ends unitSize tr x n := not_ends_of here fun _ => none ▸ List.not_mem_nil
  obtain ⟨holds, base, calls⟩ := (LifetimeInv.bump inv.state here fun _ => none ▸ List.not_mem_nil).beforeMem
    (fun x member => by
      rw [inv.unit] at member
      refine ⟨((mem_unitsOf_iff power rounds).mp member).1, n, Nat.lt_succ_self n, ⟨addr, size, here, member⟩, ?_⟩
      intro m after before
      exact Nat.le_antisymm (Nat.le_of_lt_succ before) after ▸ keeps x) ran
  refine ⟨⟨(congrArg DetectorBase.unitSize base).trans inv.unit, ?_, holds⟩, fun r made => ?_⟩
  · rw [liveAt_succ here, Hook.live, none, base]
    exact inv.filter
  · obtain ⟨member, rfl, rfl, rfl, other, i, before, access, kept⟩ := calls _ made
    have now : Accesses unitSize tr r.p1 r.addr n r.t1 r.i1 := ⟨addr, size, here, inv.unit ▸ member⟩
    have earlier : i < n := by
      rcases Nat.lt_succ_iff_lt_or_eq.mp before with before | rfl
      · exact before
      · exact absurd (access.unique now).2.1 other
    refine ⟨now, i, earlier, access, fun m after before => kept m after (Nat.lt_succ_of_le before)⟩

/-- Hooks of synchronisation release nothing. -/
theorem regionOps_of_sync (sync : (∃ kind x u, e.Publishes kind x u) ∨ ∃ kind x u, e.Acquires kind x u) :
    e.regionOps = [] := by
  cases e <;> first | rfl | (obtain ⟨_, _, _, none⟩ | ⟨_, _, _, none⟩ := sync <;> exact none.elim)

theorem LifetimeInv.units (inv : LifetimeInv debug unitSize trackRacyInst tr n d)
    (conforms : LifetimesConform debug unitSize tr) (here : tr[n]? = some e) {b : DetectorBase Unit}
    (ran : d.onHookIn debug djit e = some b) : e.SyncAligned unitSize := by
  cases asserts : debug with
  | true => exact units_of_asserted asserts inv.unit ran
  | false => exact conforms.aligned asserts e (List.mem_of_getElem? here)

theorem LifetimeInv.publish (inv : LifetimeInv debug unitSize trackRacyInst tr n d)
    (conforms : LifetimesConform debug unitSize tr) (reached : DjitAt debug unitSize trackRacyInst tr n d)
    (here : tr[n]? = some e) (publishes : ∃ kind x u, e.Publishes kind x u) {b : DetectorBase Unit}
    (ran : d.onHookIn debug djit e = some b) :
    LifetimeInv debug unitSize trackRacyInst tr (n + 1) (d.onBase b) := by
  have keeps := regionOps_of_sync (Or.inl publishes)
  have none : ∀ addr, .free addr ∉ e.regionOps := fun _ => keeps ▸ List.not_mem_nil
  have now : ∀ x m, n ≤ m → m < n + 1 → ¬ Ends unitSize tr x m := fun x m after before =>
    Nat.le_antisymm (Nat.le_of_lt_succ before) after ▸ not_ends_of here none x
  obtain ⟨sync, settings⟩ := (LifetimeInv.bump inv.state here none).sync.publish
    (inv.units conforms here ran) (fun kind x u v stored found =>
      ⟨⟨n, Nat.lt_succ_self n, e, u, d, v, here, stored, reached, found, Or.inl rfl, now x⟩,
        ⟨n, Nat.lt_succ_self n, e, u, d, v, here, stored, reached, found, Or.inr rfl, now x⟩⟩) publishes ran
  exact inv.quiet here keeps settings sync

theorem LifetimeInv.acquire (inv : LifetimeInv debug unitSize trackRacyInst tr n d)
    (conforms : LifetimesConform debug unitSize tr) (here : tr[n]? = some e) {t : ThreadId} {v : VectorClock}
    (acquires : ∃ kind x, e.Acquires kind x t) (found : d.currVcMap[t]? = some v) {b : DetectorBase Unit}
    (ran : d.onHookIn debug djit e = some b) :
    LifetimeInv debug unitSize trackRacyInst tr (n + 1) (d.onBase b) ∧
      ∃ v', (b.currVcMap[t]? = some v' ∨ b.currVcMap[t]? = some (v'.increment t)) ∧
        Gains (fun c => ∃ kind x, e.Acquires kind x t ∧ Source debug unitSize trackRacyInst tr n kind x c) v v' := by
  have keeps : e.regionOps = [] := by
    obtain ⟨kind, x, acquired⟩ := acquires
    exact regionOps_of_sync (Or.inr ⟨kind, x, t, acquired⟩)
  have none : ∀ addr, .free addr ∉ e.regionOps := fun _ => keeps ▸ List.not_mem_nil
  obtain ⟨sync, settings, gained⟩ := inv.state.sync.acquire (inv.units conforms here ran) acquires found ran
  refine ⟨inv.quiet here keeps settings ?_, gained⟩
  exact sync.mono fun _ x _ source => source.bump (not_ends_of here none x)

/-- Hooks that take in a clock need one of their own. -/
theorem clock_of_acquire {t : ThreadId} (acquires : ∃ kind x, e.Acquires kind x t) {b b' : DetectorBase Unit}
    (ran : b.onHookIn debug djit e = some b') : ∃ v, b.currVcMap[t]? = some v := by
  obtain ⟨_, _, acquires⟩ := acquires
  cases e with
  | afterPthreadMutexLock curr addr =>
    obtain ⟨-, -, rfl⟩ := acquires
    obtain ⟨v, found, -⟩ := Option.bind_eq_some_iff.mp (bind_assertIn ran)
    exact ⟨v, found⟩
  | afterPthreadCondWait curr condAddr mutexAddr | afterPthreadCondTimedwait curr condAddr mutexAddr =>
    obtain ⟨-, rfl⟩ := acquires
    obtain ⟨woken, waited, -⟩ := Option.bind_eq_some_iff.mp (bind_assertIn (bind_assertIn ran))
    obtain ⟨v, found, -⟩ := Option.bind_eq_some_iff.mp waited
    exact ⟨v, found⟩
  | afterPthreadBarrierWait curr addr =>
    obtain ⟨-, -, rfl⟩ := acquires
    obtain ⟨v, found, -⟩ := Option.bind_eq_some_iff.mp (bind_assertIn ran)
    exact ⟨v, found⟩
  | _ => exact acquires.elim

theorem stepIn_sync (sync : (∃ kind x u, e.Publishes kind x u) ∨ ∃ kind x u, e.Acquires kind x u) :
    d.stepIn debug djit e = d.silent (d.onHookIn debug djit e) := by
  cases e <;> first | rfl | (obtain ⟨_, _, _, none⟩ | ⟨_, _, _, none⟩ := sync <;> exact none.elim)

theorem not_acquires_of_publishes {kind kind' : SyncObject} {x y : Address} {u t : ThreadId}
    (publishes : e.Publishes kind x u) : ¬ e.Acquires kind' y t := by
  cases e <;> first | exact id | exact publishes.elim

/-- Hooks of neither kind. -/
theorem LifetimeInv.other {p : ℕ} (power : unitSize.toNat = 2 ^ p)
    (inv : LifetimeInv debug unitSize trackRacyInst tr n d) (conforms : LifetimesConform debug unitSize tr)
    (here : tr[n]? = some e) (noPublish : ¬ ∃ kind x u, e.Publishes kind x u)
    (noAcquire : ¬ ∃ kind x u, e.Acquires kind x u) {out : List DbCall}
    (stepped : d.stepIn debug djit e = some (d', out)) :
    LifetimeInv debug unitSize trackRacyInst tr (n + 1) d' ∧
      ∀ r, .createRace r ∈ out → SameLifetime unitSize tr n r := by
  obtain ⟨admitted, inside⟩ := conforms.regions n e here
  have rounds := conforms.rounds n e here
  have quiet : ∀ {b : Option (DetectorBase Unit)}, d.silent b = some (d', out) →
      (∀ b', b = some b' → LifetimeInv debug unitSize trackRacyInst tr (n + 1) (d.onBase b')) →
      LifetimeInv debug unitSize trackRacyInst tr (n + 1) d' ∧
        ∀ r, .createRace r ∈ out → SameLifetime unitSize tr n r := by
    intro b silent each
    obtain ⟨b', ran, rfl, rfl⟩ := Detector.silent_eq_some silent
    exact ⟨each b' ran, by simp⟩
  -- what a release reports are instructions
  have freed : ∀ (d : Detector Unit DjitMeta) addr r, .createRace r ∉ (d.freeAddrRegion djit addr).2 := by
    intro d addr r made
    unfold Detector.freeAddrRegion at made
    split at made
    · cases made
    · obtain ⟨m, released⟩ := (freeLoop_spec _ _ _).2 _ made
      simp only [djit, Djit.processFree, releaseInsts] at released
      split at released
      · simp at released
      · cases released
  have accessed : ∀ (l : RaceEventType) curr inst addr size, e = l.hook curr inst addr size →
      (∃ r ∈ liveAt tr n, r.Covers addr size) →
      d.beforeMem djit (djit.process l) curr inst addr size = some (d', out) →
      LifetimeInv debug unitSize trackRacyInst tr (n + 1) d' ∧
        ∀ r, .createRace r ∈ out → SameLifetime unitSize tr n r := by
    rintro l curr inst addr size rfl ⟨r, member, -, -, ends⟩ ran
    have rounded : RoundsUp unitSize addr size := by
      have whole := rounds r member
      unfold RoundsUp at whole ⊢
      omega
    exact inv.access power here rounded ran
  cases e with
  | imageLoad => exact quiet stepped fun b ran => inv.imageLoad here admitted ran
  | imageUnload lowAddr dataStart bssStart =>
    have ran := bind_assertIn stepped
    cases ran
    refine ⟨inv.imageUnload power here admitted rounds, fun r made => ?_⟩
    rcases List.mem_append.mp made with made | made
    · exact absurd made (freed _ _ r)
    · exact absurd made (freed _ _ r)
  | threadStart curr parent =>
    refine quiet stepped fun b ran => ?_
    have ran : d.threadStart curr parent = some b := ran
    unfold DetectorBase.threadStart at ran
    split at ran
    · obtain ⟨parentVc, -, same⟩ := Option.bind_eq_some_iff.mp ran
      cases same
      exact inv.quietBase here rfl ⟨rfl, rfl, rfl⟩ rfl rfl rfl
    · cases ran
      exact inv.quietBase here rfl ⟨rfl, rfl, rfl⟩ rfl rfl rfl
  | beforeMemRead curr inst addr size => exact accessed .read curr inst addr size rfl inside stepped
  | beforeMemWrite curr inst addr size => exact accessed .write curr inst addr size rfl inside stepped
  | beforeAtomicInst | afterAtomicInst | beforeCall =>
    refine quiet stepped fun b ran => ?_
    cases ran
    exact inv.quietBase here rfl ⟨rfl, rfl, rfl⟩ rfl rfl rfl
  | afterPthreadJoin curr child =>
    refine quiet stepped fun b ran => ?_
    have ran : d.afterPthreadJoin curr child = some b := ran
    simp only [DetectorBase.afterPthreadJoin, Option.bind_eq_bind, Option.bind_eq_some_iff, Option.pure_def,
      Option.some.injEq] at ran
    obtain ⟨currVc, -, childVc, -, rfl⟩ := ran
    exact inv.quietBase here rfl ⟨rfl, rfl, rfl⟩ rfl rfl rfl
  | afterMalloc | afterValloc | afterRealloc | afterCalloc =>
    exact quiet stepped fun b ran => inv.alloc here rfl admitted ran
  | beforeRealloc addr | beforeFree addr =>
    have same : (d.freeAddrRegion djit addr).1 = d' := congrArg Prod.fst (Option.some.inj stepped)
    have outs : (d.freeAddrRegion djit addr).2 = out := congrArg Prod.snd (Option.some.inj stepped)
    exact ⟨same ▸ inv.free power here rfl admitted rounds, fun r made => absurd (outs ▸ made) (freed d addr r)⟩
  | afterPthreadMutexLock | afterPthreadBarrierWait => exact absurd ⟨_, _, _, rfl, rfl, rfl⟩ noAcquire
  | afterPthreadCondWait | afterPthreadCondTimedwait =>
    exact absurd ⟨_, _, _, Or.inl ⟨rfl, rfl⟩, rfl⟩ noAcquire
  | beforePthreadMutexUnlock | beforePthreadCondSignal | beforePthreadCondBroadcast
  | beforePthreadBarrierWait => exact absurd ⟨_, _, _, rfl, rfl, rfl⟩ noPublish
  | beforePthreadCondWait | beforePthreadCondTimedwait =>
    exact absurd ⟨_, _, _, Or.inl ⟨rfl, rfl⟩, rfl⟩ noPublish

/-- One hook. -/
theorem LifetimeInv.step {p : ℕ} (power : unitSize.toNat = 2 ^ p)
    (inv : LifetimeInv debug unitSize trackRacyInst tr n d) (conforms : LifetimesConform debug unitSize tr)
    (reached : DjitAt debug unitSize trackRacyInst tr n d) (here : tr[n]? = some e) {out : List DbCall}
    (stepped : d.stepIn debug djit e = some (d', out)) :
    LifetimeInv debug unitSize trackRacyInst tr (n + 1) d' ∧
      (∀ r, .createRace r ∈ out → SameLifetime unitSize tr n r) ∧
      GainsWithin debug unitSize trackRacyInst tr n e d d' := by
  by_cases publishes : ∃ kind x u, e.Publishes kind x u
  · rw [stepIn_sync (Or.inl publishes)] at stepped
    obtain ⟨b, ran, rfl, rfl⟩ := Detector.silent_eq_some stepped
    refine ⟨inv.publish conforms reached here publishes ran, by simp, ?_⟩
    rintro t v ⟨_, _, acquires⟩
    obtain ⟨_, _, _, stored⟩ := publishes
    exact absurd acquires (not_acquires_of_publishes stored)
  · by_cases acquires : ∃ kind x u, e.Acquires kind x u
    · rw [stepIn_sync (Or.inr acquires)] at stepped
      obtain ⟨b, ran, rfl, rfl⟩ := Detector.silent_eq_some stepped
      have kept : LifetimeInv debug unitSize trackRacyInst tr (n + 1) (d.onBase b) := by
        obtain ⟨kind, x, t, acquired⟩ := acquires
        obtain ⟨v, found⟩ := clock_of_acquire ⟨kind, x, acquired⟩ ran
        exact (inv.acquire conforms here ⟨kind, x, acquired⟩ found ran).1
      exact ⟨kept, by simp, fun t v acquired found => (inv.acquire conforms here acquired found ran).2⟩
    · obtain ⟨kept, reports⟩ := inv.other power conforms here publishes acquires stepped
      exact ⟨kept, reports, fun t v ⟨kind, x, acquired⟩ => absurd ⟨kind, x, t, acquired⟩ acquires⟩

theorem lifetimeInv_start : LifetimeInv debug unitSize trackRacyInst tr 0 (djitStart unitSize trackRacyInst) where
  unit := rfl
  filter := .empty
  state := ⟨⟨.empty, .empty, .empty⟩, .empty⟩

theorem lifetimeInv_at {p : ℕ} (power : unitSize.toNat = 2 ^ p) (conforms : LifetimesConform debug unitSize tr)
    (bound : n ≤ tr.length) (reached : DjitAt debug unitSize trackRacyInst tr n d) :
    LifetimeInv debug unitSize trackRacyInst tr n d := by
  induction n generalizing d with
  | zero =>
    cases reached.unique Runs.at_zero
    exact lifetimeInv_start
  | succ n ih =>
    have here := List.getElem?_eq_getElem (Nat.lt_of_succ_le bound)
    obtain ⟨outs, ran⟩ := reached
    rw [List.take_add_one, here] at ran
    obtain ⟨before, head, tail, earlier, continued, -⟩ := Runs.run_append_inv ran
    obtain ⟨next, out, _, stepped, ended, -⟩ := Runs.run_cons_inv continued
    cases ended
    have inv := ih (Nat.le_of_succ_le bound) ⟨head, earlier⟩
    exact (inv.step power conforms ⟨head, earlier⟩ here stepped).1

end

/-- The loops visit exactly the units that the range reaches into. -/
structure UnitsExact (unitSize : Address) (tr : List Hook) (n : ℕ) (e : Hook) (d : Detector Unit DjitMeta) :
    Prop where
  accesses : ∀ (k : RaceEventType) t inst addr size, e = k.hook t inst addr size → ∀ x,
    x ∈ unitsOf d.unitSize addr size ↔ IsUnit unitSize x ∧ Overlaps unitSize x addr size
  releases : ∀ r ∈ liveAt tr n, (d.filter.removeRegion r.addr).1 = r.size ∧ ∀ x,
    x ∈ unitsOf d.unitSize r.addr r.size ↔ IsUnit unitSize x ∧ Overlaps unitSize x r.addr r.size

/-- Nothing that Djit reports, and no clock that it hands to a thread, is from an
earlier lifetime of its address, in either build. -/
theorem lifetimes_apart (debug : Bool) {unitSize : Address} {p : ℕ} (power : unitSize.toNat = 2 ^ p)
    (trackRacyInst : Bool) {tr : List Hook} (conforms : LifetimesConform debug unitSize tr) {n : ℕ} {e : Hook}
    (here : tr[n]? = some e) {d : Detector Unit DjitMeta} (reached : DjitAt debug unitSize trackRacyInst tr n d) :
    UnitsExact unitSize tr n e d ∧ ∀ d' out, d.stepIn debug djit e = some (d', out) →
      (∀ r, .createRace r ∈ out → SameLifetime unitSize tr n r) ∧
      GainsWithin debug unitSize trackRacyInst tr n e d d' := by
  obtain ⟨bound, -⟩ := List.getElem?_eq_some_iff.mp here
  have inv := lifetimeInv_at power conforms (Nat.le_of_lt bound) reached
  have rounds := conforms.rounds n e here
  refine ⟨⟨?_, fun r member => ⟨?_, ?_⟩⟩, fun d' out stepped => (inv.step power conforms reached here stepped).2⟩
  · rintro k t inst addr size rfl x
    have inside := (conforms.regions n _ here).2
    have covered : ∃ r ∈ liveAt tr n, r.Covers addr size := by cases k <;> exact inside
    obtain ⟨r, member, -, -, ends⟩ := covered
    have whole := rounds r member
    rw [inv.unit]
    refine mem_unitsOf_iff power ?_
    unfold RoundsUp at whole ⊢
    omega
  · have entry := (inv.filter.entries r.addr r.size).mpr member
    rw [RegionFilter.removeRegion, if_neg (inv.filter.fits r member).1, entry]
  · intro x
    rw [inv.unit]
    exact mem_unitsOf_iff power (rounds r member)

/-- A mutex that is released in one block and acquired in the next one there. -/
def reuse (block size mutex : Address) : List Hook :=
  [.threadStart 1 invalidThdId, .threadStart 2 1, .afterMalloc size block, .beforePthreadMutexUnlock 1 mutex,
    .beforeFree block, .afterMalloc size block, .afterPthreadMutexLock 2 mutex]

theorem lifetimes_apart_reuse : ∃ d, DjitAt false 4 false (reuse 8192 64 8200) 6 d ∧
    (UnitsExact 4 (reuse 8192 64 8200) 6 (.afterPthreadMutexLock 2 8200) d ∧
      ∀ d' out, d.stepIn false djit (.afterPthreadMutexLock 2 8200) = some (d', out) →
        (∀ r, .createRace r ∈ out → SameLifetime 4 (reuse 8192 64 8200) 6 r) ∧
        GainsWithin false 4 false (reuse 8192 64 8200) 6 (.afterPthreadMutexLock 2 8200) d d') := by
  have runs : (Runs.run (Detector.stepIn false djit) (djitStart 4 false)
      ((reuse 8192 64 8200).take 6)).isSome = true := by decide +kernel
  obtain ⟨⟨d, outs⟩, ran⟩ := Option.isSome_iff_exists.mp runs
  have power : (4 : Address).toNat = 2 ^ 2 := by decide
  exact ⟨d, ⟨outs, ran⟩, lifetimes_apart false power false (by decide +kernel) rfl ⟨outs, ran⟩⟩

section Stale
variable {debug : Bool} {unitSize block size mutex : Address}

/-- The release of the block lies between. -/
theorem reuse_no_source (overlaps : Overlaps unitSize mutex block size) (c : VectorClock) :
    ¬ Source debug unitSize false (reuse block size mutex) 6 .mutex mutex c := by
  rintro ⟨m, before, e, u, d, v, here, publishes, -, -, -, still⟩
  have released : Ends unitSize (reuse block size mutex) mutex 4 :=
    ⟨_, rfl, ⟨block, size⟩, by simp [liveAt, reuse, Hook.live, Hook.regionOps, RegionOp.apply],
      List.mem_singleton.mpr rfl, overlaps⟩
  have early : m ≤ 4 := by
    by_contra late
    have last : m = 5 := by omega
    subst last
    cases here
    exact publishes
  exact still 4 early (by decide) released

/-- The second thread has the clock of the first one nevertheless. -/
theorem reuse_crosses (overlaps : Overlaps unitSize mutex block size)
    (ran : ((Runs.run (Detector.stepIn debug djit) (djitStart unitSize false)
        ((reuse block size mutex).take 6)).bind fun last =>
      (last.1.stepIn debug djit (.afterPthreadMutexLock 2 mutex)).map fun next => (last.1, next.1)).any
        (fun states => states.1.currVcMap[2]?.any (·.getClock 1 = 1) &&
          states.2.currVcMap[2]?.any (·.getClock 1 = 2)) = true) :
    ∃ d d' out, DjitAt debug unitSize false (reuse block size mutex) 6 d ∧
      d.stepIn debug djit (.afterPthreadMutexLock 2 mutex) = some (d', out) ∧
      ¬ GainsWithin debug unitSize false (reuse block size mutex) 6 (.afterPthreadMutexLock 2 mutex) d d' := by
  obtain ⟨⟨d, d'⟩, ends, tested⟩ := (Option.any_eq_true _ _).mp ran
  obtain ⟨⟨d, outs⟩, reached, ends⟩ := Option.bind_eq_some_iff.mp ends
  obtain ⟨⟨d', out⟩, stepped, same⟩ := Option.map_eq_some_iff.mp ends
  cases same
  simp only [Bool.and_eq_true] at tested
  obtain ⟨v, found, early⟩ := (Option.any_eq_true _ _).mp tested.1
  obtain ⟨w, after, late⟩ := (Option.any_eq_true _ _).mp tested.2
  refine ⟨d, d', out, ⟨outs, reached⟩, stepped, fun within => ?_⟩
  obtain ⟨v', now, gains⟩ := within 2 v ⟨.mutex, mutex, rfl, rfl, rfl⟩ found
  have seen : v'.getClock 1 = 2 := by
    rcases now with now | now
    · cases after.symm.trans now
      exact of_decide_eq_true late
    · cases after.symm.trans now
      simpa using late
  rcases gains 1 with same | ⟨c, ⟨kind, x, ⟨rfl, rfl, -⟩, source⟩, -⟩
  · rw [seen, of_decide_eq_true early] at same
    exact nomatch same
  · exact reuse_no_source overlaps c source

end Stale

/-- Without assertions a mutex off the unit boundaries keeps its clock when its
block is released; in either build one in the last unit of the address space does. -/
theorem clocks_cross_lifetimes :
    (RegionsConform 16 (reuse 8192 64 8200) ∧ ∃ d d' out, DjitAt false 16 false (reuse 8192 64 8200) 6 d ∧
      d.stepIn false djit (.afterPthreadMutexLock 2 8200) = some (d', out) ∧
      ¬ GainsWithin false 16 false (reuse 8192 64 8200) 6 (.afterPthreadMutexLock 2 8200) d d') ∧
    (RegionsConform 4 (reuse (-4) 3 (-4)) ∧ ∃ d d' out, DjitAt true 4 false (reuse (-4) 3 (-4)) 6 d ∧
      d.stepIn true djit (.afterPthreadMutexLock 2 (-4)) = some (d', out) ∧
      ¬ GainsWithin true 4 false (reuse (-4) 3 (-4)) 6 (.afterPthreadMutexLock 2 (-4)) d d') :=
  ⟨⟨by decide, reuse_crosses (by decide) (by decide +kernel)⟩,
    ⟨by decide, reuse_crosses (by decide) (by decide +kernel)⟩⟩

end Maple.Race
