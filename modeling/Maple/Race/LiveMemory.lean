import Maple.Race.Djit
import Maple.Race.HeapCalls

/-! The memory of the monitored program along its allocation calls, and when the
filter keeps up with it: every null result must have asked for no bytes. -/
namespace Maple.Race

/-- Blocks of the C library and data and bss sections of the loaded images. -/
structure ProgramMemory where
  heap : List Region := []
  sections : List Region := []
  deriving DecidableEq

namespace ProgramMemory

def live (m : ProgramMemory) : Set Region := {r | r ∈ m.heap ∨ r ∈ m.sections}

/-- A null result allocates nothing. -/
def allocate (m : ProgramMemory) (addr size : Address) : ProgramMemory :=
  if addr = 0 then m else { m with heap := ⟨addr, size⟩ :: m.heap }

def release (m : ProgramMemory) (addr : Address) : ProgramMemory :=
  { m with heap := m.heap.filter fun r => r.addr ≠ addr }

def load (m : ProgramMemory) (start size : Address) : ProgramMemory :=
  if start = 0 then m else { m with sections := ⟨start, size⟩ :: m.sections }

def unload (m : ProgramMemory) (start : Address) : ProgramMemory :=
  { m with sections := m.sections.filter fun r => r.addr ≠ start }

/-- A new block keeps clear of everything that is live. -/
def Fresh (m : ProgramMemory) (r : Region) : Prop := r.Placed ∧ ∀ s ∈ m.heap ++ m.sections, r.Apart s

def Returns (m : ProgramMemory) (ret size : Address) : Prop := ret = 0 ∨ m.Fresh ⟨ret, size⟩

def Owns (m : ProgramMemory) (addr : Address) : Prop := addr = 0 ∨ ∃ r ∈ m.heap, r.addr = addr

def Loaded (m : ProgramMemory) (start : Address) : Prop := start = 0 ∨ ∃ r ∈ m.sections, r.addr = start

/-- A section that is there has bytes. -/
def Loads (m : ProgramMemory) (start size : Address) : Prop := start = 0 ∨ size ≠ 0 ∧ m.Fresh ⟨start, size⟩

instance (m : ProgramMemory) (r : Region) : Decidable (m.Fresh r) :=
  @instDecidableAnd _ _ _ (List.decidableBAll _ _)
instance (m : ProgramMemory) (ret size : Address) : Decidable (m.Returns ret size) :=
  inferInstanceAs (Decidable (_ ∨ _))
instance (m : ProgramMemory) (addr : Address) : Decidable (m.Owns addr) :=
  @instDecidableOr _ _ _ (List.decidableBEx _ _)
instance (m : ProgramMemory) (start : Address) : Decidable (m.Loaded start) :=
  @instDecidableOr _ _ _ (List.decidableBEx _ _)
instance (m : ProgramMemory) (start size : Address) : Decidable (m.Loads start size) :=
  inferInstanceAs (Decidable (_ ∨ _))

end ProgramMemory

namespace HeapCall

/-- What the C library did. -/
def effect (m : ProgramMemory) : HeapCall → ProgramMemory
  | .malloc size ret | .valloc size ret => m.allocate ret size
  | .calloc nmemb size ret => m.allocate ret (size * nmemb)
  | .realloc oriAddr size ret released =>
    (if ret ≠ 0 ∨ released then m.release oriAddr else m).allocate ret size
  | .free addr => m.release addr

/-- What the C library may do: any allocation may fail, a product that overflows
fails, and a null result of `realloc` keeps the block unless no bytes were asked for. -/
def Allowed (m : ProgramMemory) : HeapCall → Prop
  | .malloc size ret | .valloc size ret => m.Returns ret size
  | .calloc nmemb size ret =>
    m.Returns ret (size * nmemb) ∧ (ret ≠ 0 → nmemb.toNat * size.toNat < 2 ^ 64)
  | .realloc oriAddr size ret released =>
    m.Owns oriAddr ∧ (m.release oriAddr).Returns ret size ∧ (ret = 0 → released → size = 0)
  | .free addr => m.Owns addr

/-- The build with assertions aborts on a null result and on an empty request,
the other one only goes wrong where a null result asked for some bytes. -/
def Accepted (debug : Bool) (ret size : Address) : Prop :=
  if debug then ret ≠ 0 ∧ size ≠ 0 else ret = 0 → size = 0

/-- In addition, a block that `realloc` kept behind a null result must be empty. -/
def Handled (debug : Bool) (m : ProgramMemory) : HeapCall → Prop
  | .malloc size ret | .valloc size ret => Accepted debug ret size
  | .calloc nmemb size ret => Accepted debug ret (size * nmemb)
  | .realloc oriAddr size ret released => Accepted debug ret size ∧
    (ret = 0 → ¬ released → ∀ r ∈ m.heap, r.addr = oriAddr → r.size = 0)
  | .free _ => True

instance (m : ProgramMemory) (c : HeapCall) : Decidable (c.Allowed m) := by
  induction c using HeapCall.casesOn <;> simp only [Allowed] <;> infer_instance
instance (debug : Bool) (ret size : Address) : Decidable (Accepted debug ret size) :=
  inferInstanceAs (Decidable (ite _ _ _))
instance (debug : Bool) (m : ProgramMemory) (c : HeapCall) : Decidable (c.Handled debug m) := by
  induction c using HeapCall.casesOn <;> simp only [Handled]
  case realloc =>
    exact @instDecidableAnd _ _ _ (@instDecidableForall _ _ _
      (@instDecidableForall _ _ _ (List.decidableBAll _ _)))
  all_goals infer_instance

end HeapCall

namespace HeapEvent

def effect (m : ProgramMemory) : HeapEvent → ProgramMemory
  | .imageLoad _ _ dataStart dataSize bssStart bssSize => (m.load dataStart dataSize).load bssStart bssSize
  | .imageUnload _ dataStart bssStart => (m.unload dataStart).unload bssStart
  | .call c => c.effect m

def Allowed (m : ProgramMemory) : HeapEvent → Prop
  | .imageLoad lowAddr highAddr dataStart dataSize bssStart bssSize =>
    (lowAddr ≠ 0 ∧ highAddr ≠ 0 ∧ lowAddr < highAddr) ∧ m.Loads dataStart dataSize ∧
      (m.load dataStart dataSize).Loads bssStart bssSize
  | .imageUnload lowAddr dataStart bssStart =>
    lowAddr ≠ 0 ∧ m.Loaded dataStart ∧ (m.unload dataStart).Loaded bssStart
  | .call c => c.Allowed m

def Handled (debug : Bool) (m : ProgramMemory) : HeapEvent → Prop
  | .call c => c.Handled debug m
  | _ => True

instance (m : ProgramMemory) (e : HeapEvent) : Decidable (e.Allowed m) := by
  induction e using HeapEvent.casesOn <;> simp only [Allowed] <;> infer_instance
instance (debug : Bool) (m : ProgramMemory) (e : HeapEvent) : Decidable (e.Handled debug m) := by
  induction e using HeapEvent.casesOn <;> simp only [Handled] <;> infer_instance

end HeapEvent

/-- The memory behind the first `n` events. -/
def memoryAt (es : List HeapEvent) (n : ℕ) : ProgramMemory := (es.take n).foldl HeapEvent.effect {}

theorem memoryAt_succ {es : List HeapEvent} {n : ℕ} {e : HeapEvent} (here : es[n]? = some e) :
    memoryAt es (n + 1) = e.effect (memoryAt es n) := by
  simp [memoryAt, List.take_add_one, here, List.foldl_append]

/-- What allowed events keep of the memory. -/
structure ProgramMemory.Valid (m : ProgramMemory) : Prop where
  separate : Separate m.live
  apart : ∀ r ∈ m.heap, ∀ s ∈ m.sections, r.Apart s

namespace ProgramMemory
variable {m : ProgramMemory} {addr size start : Address}

theorem live_allocate (m : ProgramMemory) (present : addr ≠ 0) :
    (m.allocate addr size).live = insert ⟨addr, size⟩ m.live := by
  ext r
  simp only [allocate, if_neg present, live, List.mem_cons, Set.mem_ofPred_eq, Set.mem_insert_iff, or_assoc]

theorem live_load (m : ProgramMemory) (present : start ≠ 0) :
    (m.load start size).live = insert ⟨start, size⟩ m.live := by
  ext r
  simp only [load, if_neg present, live, List.mem_cons, Set.mem_ofPred_eq, Set.mem_insert_iff]
  tauto

theorem live_release_subset (m : ProgramMemory) (addr : Address) : (m.release addr).live ⊆ m.live := by
  intro r member
  exact member.imp_left fun kept => (List.mem_filter.mp kept).1

theorem live_unload_subset (m : ProgramMemory) (start : Address) : (m.unload start).live ⊆ m.live := by
  intro r member
  exact member.imp_right fun kept => (List.mem_filter.mp kept).1

/-- No section starts where an owned block does. -/
theorem Valid.live_release (valid : m.Valid) (owns : m.Owns addr) :
    (m.release addr).live = without m.live addr := by
  have clear : ∀ s ∈ m.sections, s.addr ≠ addr := by
    intro s member
    rcases owns with rfl | ⟨r, inside, rfl⟩
    · exact (valid.separate.placed s (Or.inr member)).1
    · exact (valid.apart r inside s member).addr_ne.symm
  ext r
  have apart := clear r
  simp only [release, live, without, Set.mem_ofPred_eq, List.mem_filter, decide_eq_true_eq]
  tauto

theorem Valid.live_unload (valid : m.Valid) (loaded : m.Loaded start) :
    (m.unload start).live = without m.live start := by
  have clear : ∀ r ∈ m.heap, r.addr ≠ start := by
    intro r inside
    rcases loaded with rfl | ⟨s, member, rfl⟩
    · exact (valid.separate.placed r (Or.inl inside)).1
    · exact (valid.apart r inside s member).addr_ne
  ext r
  have apart := clear r
  simp only [unload, live, without, Set.mem_ofPred_eq, List.mem_filter, decide_eq_true_eq]
  tauto

theorem Valid.release (valid : m.Valid) (addr : Address) : (m.release addr).Valid where
  separate := valid.separate.mono (m.live_release_subset addr)
  apart r member := valid.apart r (List.mem_filter.mp member).1

theorem Valid.unload (valid : m.Valid) (start : Address) : (m.unload start).Valid where
  separate := valid.separate.mono (m.live_unload_subset start)
  apart r inside s member := valid.apart r inside s (List.mem_filter.mp member).1

theorem Valid.allocate (valid : m.Valid) (returns : m.Returns addr size) : (m.allocate addr size).Valid := by
  by_cases null : addr = 0
  · rwa [ProgramMemory.allocate, if_pos null]
  · obtain ⟨placed, fresh⟩ := returns.resolve_left null
    simp only [List.mem_append] at fresh
    refine ⟨?_, ?_⟩
    · rw [m.live_allocate null]
      exact valid.separate.insert placed fresh
    · rw [ProgramMemory.allocate, if_neg null]
      intro r inside s member
      rcases List.mem_cons.mp inside with rfl | inside
      · exact fresh s (Or.inr member)
      · exact valid.apart r inside s member

theorem Valid.load (valid : m.Valid) (loads : m.Loads start size) : (m.load start size).Valid := by
  by_cases null : start = 0
  · rwa [ProgramMemory.load, if_pos null]
  · obtain ⟨-, placed, fresh⟩ := loads.resolve_left null
    simp only [List.mem_append] at fresh
    refine ⟨?_, ?_⟩
    · rw [m.live_load null]
      exact valid.separate.insert placed fresh
    · rw [ProgramMemory.load, if_neg null]
      intro r inside s member
      rcases List.mem_cons.mp member with rfl | member
      · exact (fresh r (Or.inl inside)).symm
      · exact valid.apart r inside s member

end ProgramMemory

theorem HeapEvent.Allowed.valid {m : ProgramMemory} {e : HeapEvent} (allowed : e.Allowed m) (valid : m.Valid) :
    (e.effect m).Valid := by
  cases e with
  | imageLoad =>
    obtain ⟨-, data, bss⟩ := allowed
    exact (valid.load data).load bss
  | imageUnload => exact (valid.unload _).unload _
  | call c =>
    cases c with
    | malloc | valloc => exact valid.allocate allowed
    | calloc => exact valid.allocate allowed.1
    | free => exact valid.release _
    | realloc oriAddr size ret released =>
      obtain ⟨-, returns, -⟩ := allowed
      simp only [HeapEvent.effect, HeapCall.effect]
      split
      · exact (valid.release oriAddr).allocate returns
      · next kept =>
        have null : ret = 0 := by simpa using (not_or.mp kept).1
        exact valid.allocate (Or.inl null)

/-- The detector's filter against the memory. -/
structure Tracked {G M : Type} (d : Detector G M) (m : ProgramMemory) : Prop where
  valid : m.Valid
  monitors : d.filter.Monitors m.live

namespace Tracked
variable {G M : Type} {alg : Algorithm G M} {d : Detector G M} {m : ProgramMemory} {debug : Bool}
  {addr size start : Address}

theorem exact (tracked : Tracked d m) : d.filter.Exact m.live :=
  tracked.monitors.exact tracked.valid.separate

theorem release (alg : Algorithm G M) (tracked : Tracked d m) (owns : m.Owns addr) :
    Tracked (d.freeAddrRegion alg addr).1 (m.release addr) where
  valid := tracked.valid.release addr
  monitors := by
    rw [Detector.filter_freeAddrRegion, tracked.valid.live_release owns]
    exact tracked.monitors.removeRegion tracked.valid.separate addr

theorem unload (alg : Algorithm G M) (tracked : Tracked d m) (loaded : m.Loaded start) :
    Tracked (d.freeAddrRegion alg start).1 (m.unload start) where
  valid := tracked.valid.unload start
  monitors := by
    rw [Detector.filter_freeAddrRegion, tracked.valid.live_unload loaded]
    exact tracked.monitors.removeRegion tracked.valid.separate start

theorem allocate (tracked : Tracked d m) (returns : m.Returns addr size)
    (accepted : HeapCall.Accepted debug addr size) :
    ∃ b, d.allocAddrRegionIn debug addr size = some b ∧ Tracked (d.onBase b) (m.allocate addr size) := by
  have asserted : debug = true → addr ≠ 0 ∧ size ≠ 0 := by
    rintro rfl
    exact accepted
  refine ⟨_, DetectorBase.allocAddrRegionIn_eq_some.mpr ⟨asserted, rfl⟩, tracked.valid.allocate returns, ?_⟩
  change (d.filter.addRegion addr size).Monitors _
  by_cases null : addr = 0
  · subst null
    have none : size = 0 := by
      cases debug with
      | true => exact absurd rfl accepted.1
      | false => exact accepted rfl
    rw [ProgramMemory.allocate, if_pos rfl, none]
    exact tracked.monitors.addNull tracked.valid.separate
  · obtain ⟨-, fresh⟩ := returns.resolve_left null
    rw [m.live_allocate null]
    refine tracked.monitors.addRegion (r := ⟨addr, size⟩) fun s member => fresh s ?_
    exact List.mem_append.mpr member

theorem load (debug : Bool) (tracked : Tracked d m) (loads : m.Loads start size) :
    ∃ b, d.allocSectionIn debug start size = some b ∧ Tracked (d.onBase b) (m.load start size) := by
  by_cases null : start = 0
  · refine ⟨d.toDetectorBase, ?_, ?_⟩
    · rw [DetectorBase.allocSectionIn, if_neg (not_not.mpr null)]
    · rwa [ProgramMemory.load, if_pos null]
  · obtain ⟨bytes, -, fresh⟩ := loads.resolve_left null
    rw [DetectorBase.allocSectionIn, if_pos null]
    refine ⟨_, DetectorBase.allocAddrRegionIn_eq_some.mpr ⟨fun _ => ⟨null, bytes⟩, rfl⟩, tracked.valid.load loads, ?_⟩
    rw [m.live_load null]
    refine tracked.monitors.addRegion (r := ⟨start, size⟩) fun s member => fresh s ?_
    exact List.mem_append.mpr member

/-- An empty block that is kept may have lost its entry. -/
theorem keep (tracked : Tracked d (m.release addr)) (valid : m.Valid) (owns : m.Owns addr)
    (empty : ∀ r ∈ m.heap, r.addr = addr → r.size = 0) : Tracked d m where
  valid := valid
  monitors := by
    have monitors := tracked.monitors
    rw [valid.live_release owns] at monitors
    refine monitors.of_empty (without_subset _ _) fun r member gone => ?_
    have starts : r.addr = addr := by
      by_contra other
      exact gone ⟨member, other⟩
    rcases member with inside | inside
    · exact empty r inside starts
    · rcases owns with rfl | ⟨s, owned, same⟩
      · exact absurd starts (valid.separate.placed r (Or.inr inside)).1
      · exact absurd (same.trans starts.symm) (valid.apart s owned r inside).addr_ne

theorem step_load {lowAddr highAddr dataStart dataSize bssStart bssSize : Address} (tracked : Tracked d m)
    (allowed : (HeapEvent.imageLoad lowAddr highAddr dataStart dataSize bssStart bssSize).Allowed m) :
    ∃ next, (d.stepIn debug alg (.imageLoad lowAddr highAddr dataStart dataSize bssStart bssSize)).map Prod.fst =
      some next ∧ Tracked next ((m.load dataStart dataSize).load bssStart bssSize) := by
  obtain ⟨range, data, bss⟩ := allowed
  obtain ⟨b, first, tracked⟩ := tracked.load debug data
  obtain ⟨b', second, tracked⟩ := tracked.load debug bss
  have asserted := (assertIn_eq_some debug _).mpr fun _ => range
  have loaded : d.imageLoadIn debug lowAddr highAddr dataStart dataSize bssStart bssSize = some b' := by
    simp only [DetectorBase.imageLoadIn, asserted, first, Option.bind_eq_bind, Option.bind_some]
    exact second
  refine ⟨d.onBase b', ?_, tracked⟩
  exact (Detector.map_fst_silent _).trans (congrArg (Option.map d.onBase) loaded)

theorem step_unload {lowAddr dataStart bssStart : Address} (tracked : Tracked d m)
    (allowed : (HeapEvent.imageUnload lowAddr dataStart bssStart).Allowed m) :
    ∃ next, (d.stepIn debug alg (.imageUnload lowAddr dataStart bssStart)).map Prod.fst = some next ∧
      Tracked next ((m.unload dataStart).unload bssStart) := by
  obtain ⟨range, data, bss⟩ := allowed
  have asserted := (assertIn_eq_some debug _).mpr fun _ => range
  refine ⟨_, ?_, (tracked.unload alg data).unload alg bss⟩
  simp only [Detector.stepIn, Detector.imageUnloadIn, asserted, Option.bind_eq_bind, Option.bind_some,
    Option.pure_def, Option.map_some]

theorem step_alloc (tracked : Tracked d m) (returns : m.Returns addr size)
    (accepted : HeapCall.Accepted debug addr size) :
    ∃ next, (d.allocAddrRegionIn debug addr size).map d.onBase = some next ∧
      Tracked next (m.allocate addr size) := by
  obtain ⟨b, allocated, tracked⟩ := tracked.allocate returns accepted
  exact ⟨d.onBase b, by rw [allocated, Option.map_some], tracked⟩

/-- One event: the hooks go through and the filter stays exact. -/
theorem step (alg : Algorithm G M) (tracked : Tracked d m) {e : HeapEvent} (allowed : e.Allowed m) (handled : e.Handled debug m) :
    ∃ next, d.onHeapEvent debug alg e = some next ∧ Tracked next (e.effect m) := by
  cases e with
  | imageLoad =>
    rw [Detector.onHeapEvent_single rfl]
    exact tracked.step_load allowed
  | imageUnload =>
    rw [Detector.onHeapEvent_single rfl]
    exact tracked.step_unload allowed
  | call c =>
    cases c with
    | malloc | valloc =>
      rw [Detector.onHeapEvent_single rfl]
      obtain ⟨next, stepped, tracked⟩ := tracked.step_alloc allowed handled
      exact ⟨next, (Detector.map_fst_silent _).trans stepped, tracked⟩
    | calloc =>
      rw [Detector.onHeapEvent_single rfl]
      obtain ⟨next, stepped, tracked⟩ := tracked.step_alloc allowed.1 handled
      exact ⟨next, (Detector.map_fst_silent _).trans stepped, tracked⟩
    | free =>
      rw [Detector.onHeapEvent_single rfl]
      exact ⟨_, rfl, tracked.release alg allowed⟩
    | realloc oriAddr size ret released =>
      obtain ⟨owns, returns, -⟩ := allowed
      obtain ⟨accepted, kept⟩ := handled
      obtain ⟨next, stepped, after⟩ := (tracked.release alg owns).step_alloc returns accepted
      refine ⟨next, ?_, ?_⟩
      · rw [Detector.onHeapEvent_realloc]
        exact stepped
      · simp only [HeapEvent.effect, HeapCall.effect]
        split
        · exact after
        · next failed =>
          obtain ⟨null, held⟩ := not_or.mp failed
          have null : ret = 0 := not_not.mp null
          rw [ProgramMemory.allocate, if_pos null] at after ⊢
          exact after.keep tracked.valid owns (kept null held)

/-- A null result that asked for bytes gets past the hook in the build without
assertions, and then the null address passes the filter. -/
theorem alloc_not_exact {b : DetectorBase G} {m : ProgramMemory} (valid : m.Valid)
    (refused : ¬ HeapCall.Accepted debug addr size) (allocated : d.allocAddrRegionIn debug addr size = some b) :
    ¬ b.filter.Exact m.live := by
  obtain ⟨asserted, rfl⟩ := DetectorBase.allocAddrRegionIn_eq_some.mp allocated
  cases debug with
  | true => exact absurd (asserted rfl) refused
  | false =>
    obtain ⟨rfl, bytes⟩ : addr = 0 ∧ size ≠ 0 := by simpa [HeapCall.Accepted] using refused
    intro exact
    obtain ⟨r, member, inside⟩ := (exact 0).mp (RegionFilter.addRegion_null_passes _ bytes)
    exact Region.not_contains_null (valid.separate.placed r member) inside

theorem step_alloc_not_exact {m : ProgramMemory} {next : Detector G M} (valid : m.Valid)
    (refused : ¬ HeapCall.Accepted debug addr size)
    (stepped : (d.allocAddrRegionIn debug addr size).map d.onBase = some next) :
    ¬ next.filter.Exact m.live := by
  obtain ⟨b, allocated, rfl⟩ := Option.map_eq_some_iff.mp stepped
  exact alloc_not_exact valid refused allocated

/-- The block that `realloc` kept is no longer monitored. -/
theorem realloc_not_exact {oriAddr size : Address} {next : Detector G M} (tracked : Tracked d m)
    (owns : m.Owns oriAddr) (accepted : HeapCall.Accepted debug 0 size)
    (bytes : ∃ r ∈ m.heap, r.addr = oriAddr ∧ r.size ≠ 0)
    (stepped : d.onHeapEvent debug alg (.call (.realloc oriAddr size 0 false)) = some next) :
    ¬ next.filter.Exact m.live := by
  obtain ⟨r, member, rfl, bytes⟩ := bytes
  obtain ⟨after, same, lost⟩ := (tracked.release alg owns).step_alloc (Or.inl rfl) accepted
  rw [Detector.onHeapEvent_realloc] at stepped
  cases same.symm.trans stepped
  rw [ProgramMemory.allocate, if_pos rfl] at lost
  intro exact
  have inside := Region.contains_start bytes
  have passed := (exact r.addr).mpr ⟨r, Or.inl member, inside⟩
  obtain ⟨s, kept, covers⟩ := (lost.exact r.addr).mp passed
  rw [tracked.valid.live_release owns] at kept
  have apart := tracked.valid.separate.apart (Or.inl member) kept.1 fun same => kept.2 (by rw [← same])
  exact apart.not_contains inside covers

/-- One event that is not handled: either the run ends or the filter is wrong. -/
theorem step_not_exact (tracked : Tracked d m) {e : HeapEvent} (allowed : e.Allowed m)
    (unhandled : ¬ e.Handled debug m) {next : Detector G M}
    (stepped : d.onHeapEvent debug alg e = some next) : ¬ next.filter.Exact (e.effect m).live := by
  have valid := allowed.valid tracked.valid
  cases e with
  | imageLoad => exact absurd trivial unhandled
  | imageUnload => exact absurd trivial unhandled
  | call c =>
    cases c with
    | malloc | valloc | calloc =>
      rw [Detector.onHeapEvent_single rfl] at stepped
      exact step_alloc_not_exact valid unhandled ((Detector.map_fst_silent _).symm.trans stepped)
    | free => exact absurd trivial unhandled
    | realloc oriAddr size ret released =>
      by_cases accepted : HeapCall.Accepted debug ret size
      · have kept : ret = 0 ∧ released = false ∧ ∃ r ∈ m.heap, r.addr = oriAddr ∧ r.size ≠ 0 := by
          by_contra other
          refine unhandled ⟨accepted, fun null held r member starts => ?_⟩
          by_contra bytes
          exact other ⟨null, by simpa using held, r, member, starts, bytes⟩
        obtain ⟨rfl, rfl, bytes⟩ := kept
        exact tracked.realloc_not_exact allowed.1 accepted bytes stepped
      · rw [Detector.onHeapEvent_realloc] at stepped
        exact step_alloc_not_exact valid accepted stepped

end Tracked

/-- Every event is one that the environment may deliver. -/
def AllowedEvents (es : List HeapEvent) : Prop :=
  ∀ (n : ℕ) (e : HeapEvent), es[n]? = some e → e.Allowed (memoryAt es n)

theorem allowedEvents_iff (es : List HeapEvent) :
    AllowedEvents es ↔ ∀ n : Fin es.length, (es.get n).Allowed (memoryAt es n) := by
  constructor
  · intro allowed n
    exact allowed n _ (List.getElem?_eq_getElem n.isLt)
  · intro allowed n e here
    obtain ⟨bound, same⟩ := List.getElem?_eq_some_iff.mp here
    exact same ▸ allowed ⟨n, bound⟩

instance (es : List HeapEvent) : Decidable (AllowedEvents es) :=
  decidable_of_iff _ (allowedEvents_iff es).symm

/-- Behind the first `n` events the detector runs and its filter is exact. -/
def ExactAfter {G M : Type} (debug : Bool) (alg : Algorithm G M) (d : Detector G M) (es : List HeapEvent)
    (n : ℕ) : Prop :=
  ∃ next, (es.take n).foldlM (Detector.onHeapEvent debug alg) d = some next ∧
    next.filter.Exact (memoryAt es n).live

section
variable {G M : Type} {debug : Bool} {alg : Algorithm G M} {d next : Detector G M} {es : List HeapEvent}
  {e : HeapEvent} {n : ℕ}

theorem foldlM_take_succ (here : es[n]? = some e) :
    (es.take (n + 1)).foldlM (Detector.onHeapEvent debug alg) d =
      ((es.take n).foldlM (Detector.onHeapEvent debug alg) d).bind (Detector.onHeapEvent debug alg · e) := by
  rw [List.take_add_one, here, Option.toList_some, List.foldlM_append]
  refine congrArg (Option.bind _) (funext fun next => ?_)
  rw [List.foldlM_cons]
  exact bind_pure _

theorem tracked_start (fresh : d.filter = {}) : Tracked d {} where
  valid :=
    { separate :=
        { placed := fun r member => by rcases member with none | none <;> cases none
          apart := fun r member => by rcases member with none | none <;> cases none }
      apart := fun r none => nomatch none }
  monitors := by
    rw [fresh]
    exact ⟨by simp, fun r member => by rcases member with none | none <;> cases none⟩

/-- As long as the events are handled the filter is exact. -/
theorem tracked_after (debug : Bool) (alg : Algorithm G M) (fresh : d.filter = {}) (allowed : AllowedEvents es)
    (handled : ∀ k < n, ∀ e, es[k]? = some e → e.Handled debug (memoryAt es k)) (bound : n ≤ es.length) :
    ∃ next, (es.take n).foldlM (Detector.onHeapEvent debug alg) d = some next ∧
      Tracked next (memoryAt es n) := by
  induction n with
  | zero => exact ⟨d, rfl, tracked_start fresh⟩
  | succ n ih =>
    obtain ⟨before, reached, tracked⟩ :=
      ih (fun k below => handled k (Nat.lt_succ_of_lt below)) (Nat.le_of_succ_le bound)
    have here := List.getElem?_eq_getElem (Nat.lt_of_succ_le bound)
    obtain ⟨next, stepped, after⟩ :=
      tracked.step alg (allowed n _ here) (handled n (Nat.lt_succ_self n) _ here)
    refine ⟨next, ?_, ?_⟩
    · rw [foldlM_take_succ here, reached]
      exact stepped
    · rwa [memoryAt_succ here]

end

/-- After every event the filter lets through the live memory and nothing else,
exactly when no event of the run goes unhandled. -/
theorem filter_exact_iff {G M : Type} (debug : Bool) (alg : Algorithm G M) (d : Detector G M)
    (fresh : d.filter = {}) (es : List HeapEvent) (allowed : AllowedEvents es) :
    (∀ n ≤ es.length, ExactAfter debug alg d es n) ↔
      ∀ (n : ℕ) (e : HeapEvent), es[n]? = some e → e.Handled debug (memoryAt es n) := by
  constructor
  · intro always n
    induction n using Nat.strong_induction_on with
    | h n earlier =>
      intro e here
      obtain ⟨bound, -⟩ := List.getElem?_eq_some_iff.mp here
      obtain ⟨before, reached, tracked⟩ :=
        tracked_after debug alg fresh allowed earlier (Nat.le_of_lt bound)
      obtain ⟨next, ran, exact⟩ := always (n + 1) bound
      rw [foldlM_take_succ here, reached] at ran
      rw [memoryAt_succ here] at exact
      by_contra unhandled
      exact tracked.step_not_exact (allowed n e here) unhandled ran exact
  · intro handled n bound
    obtain ⟨next, reached, tracked⟩ :=
      tracked_after debug alg fresh allowed (fun k _ => handled k) bound
    exact ⟨next, reached, tracked.exact⟩

/-- An image, a block that moves when it grows, one that is freed, and a failed
`calloc` whose product wraps around to zero. -/
def growingBlock : List HeapEvent :=
  [.imageLoad 64 4096 1024 16 2048 8, .call (.malloc 8 8192), .call (.realloc 8192 32 12288 true),
    .call (.calloc (2 ^ 32) (2 ^ 32) 0), .call (.valloc 4096 16384), .call (.free 12288)]

theorem filter_exact_growingBlock :
    (∀ n ≤ growingBlock.length, ExactAfter false djit { own := () } growingBlock n) ↔
      ∀ (n : ℕ) (e : HeapEvent), growingBlock[n]? = some e → e.Handled false (memoryAt growingBlock n) :=
  filter_exact_iff false djit { own := () } rfl growingBlock (by decide)

/-- A block that cannot grow stays allocated, but its region is gone. -/
def failedRealloc : List HeapEvent := [.call (.malloc 8 8192), .call (.realloc 8192 16 0 false)]

/-- Without assertions the accesses to the block are filtered out and the null
address passes; with them the second call ends the run. -/
theorem failedRealloc_not_exact :
    AllowedEvents failedRealloc ∧ (8192 : Address) ∈ bytesOf (memoryAt failedRealloc 2).live ∧
      (∃ d : Detector Unit DjitMeta,
        failedRealloc.foldlM (Detector.onHeapEvent false djit) { own := () } = some d ∧
          d.filter.filter 8192 = true ∧ d.filter.filter 0 = false) ∧
      failedRealloc.foldlM (Detector.onHeapEvent true djit) { own := () } = none ∧
      ¬ ∀ n ≤ failedRealloc.length, ExactAfter false djit { own := () } failedRealloc n := by
  have inside : (8192 : Address) ∈ bytesOf (memoryAt failedRealloc 2).live :=
    ⟨⟨8192, 8⟩, Or.inl (by decide), by decide⟩
  have passes : (failedRealloc.foldlM (Detector.onHeapEvent false djit) { own := () }).any
      (fun d => d.filter.filter 8192 && !d.filter.filter 0) = true := by decide +kernel
  obtain ⟨d, ran, tested⟩ := (Option.any_eq_true _ _).mp passes
  obtain ⟨lost, null⟩ : d.filter.filter 8192 = true ∧ d.filter.filter 0 = false := by simpa using tested
  refine ⟨by decide, inside, ⟨d, ran, lost, null⟩, by decide +kernel, fun always => ?_⟩
  obtain ⟨d', ran', exact⟩ := always 2 (by decide)
  cases ran.symm.trans ran'
  exact nomatch lost.symm.trans ((exact 8192).mpr inside)

end Maple.Race
