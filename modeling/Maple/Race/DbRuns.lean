import Maple.Race.DbLoad

/-! The race database over any number of program runs. Its identifiers are 32 bits
wide: what it promises holds as long as they last, and fails beyond. -/
namespace Maple.Race

/-- Static events that the calls of a trace are about. -/
def eventKeys (tr : List DbEvent) : List (InstId × RaceEventType) := tr.flatMap fun
  | .call (.createRace r) => [(r.i0, r.p0), (r.i1, r.p1)]
  | _ => []

/-- Static races that the calls of a trace are about. -/
def raceKeys (tr : List DbEvent) : List (List (InstId × RaceEventType)) := tr.flatMap fun
  | .call (.createRace r) => [[(r.i0, r.p0), (r.i1, r.p1)]]
  | _ => []

/-- Runs that create a race; the flag tells whether the current one has. -/
def racingRuns : Bool → List DbEvent → ℕ
  | created, [] => created.toNat
  | _, .call (.createRace _) :: rest => racingRuns true rest
  | created, .call (.setRacyInst _) :: rest => racingRuns created rest
  | created, .restart _ _ :: rest => created.toNat + racingRuns false rest

namespace RaceDB

/-- The database behind the first `n` events. -/
def At (sinfo : StaticInfo) (start : RaceDB) (tr : List DbEvent) (n : ℕ) (db : RaceDB) : Prop :=
  ∃ outs, Runs.run (step sinfo) start (tr.take n) = some (db, outs)

/-- What the database promises of a trace. -/
structure Persistent (sinfo : StaticInfo) (start : RaceDB) (tr : List DbEvent) : Prop where
  runs : ∀ n ≤ tr.length, ∃ db, At sinfo start tr n db
  interned : ∀ n db, At sinfo start tr n db → db.content.Interned
  kept : ∀ n m before after, n ≤ m → At sinfo start tr n before → At sinfo start tr m after →
    before.content.Within after.content
  created : ∀ n r before after, tr[n]? = some (.call (.createRace r)) → At sinfo start tr n before →
    At sinfo start tr (n + 1) after → ∃ p, after.content.races = before.content.races ++ [p] ∧
      after.content.Describes p r
  others : ∀ n e before after, tr[n]? = some e → (∀ r, e ≠ .call (.createRace r)) →
    At sinfo start tr n before → At sinfo start tr (n + 1) after →
    after.content.races = before.content.races
  racy : ∀ n inst after, tr[n]? = some (.call (.setRacyInst inst)) → At sinfo start tr (n + 1) after →
    after.content.racy inst
  /-- Races that are created before and behind a restart. -/
  execs : ∀ n k m r r' mem p before after q q', n < k → k < m → tr[n]? = some (.call (.createRace r)) →
    tr[k]? = some (.restart mem p) → tr[m]? = some (.call (.createRace r')) →
    At sinfo start tr (n + 1) before → At sinfo start tr (m + 1) after →
    before.content.races.getLast? = some q → after.content.races.getLast? = some q' → q.execId ≠ q'.execId

/-- What one event does. -/
structure Advances (e : DbEvent) (db next : RaceDB) : Prop where
  within : db.content.Within next.content
  created : ∀ r, e = .call (.createRace r) → ∃ p, next.content.races = db.content.races ++ [p] ∧
    next.content.Describes p r ∧ p.execId = next.currExecId
  others : (∀ r, e ≠ .call (.createRace r)) → next.content.races = db.content.races
  racy : ∀ inst, e = .call (.setRacyInst inst) → next.content.racy inst
  restart : ∀ mem p, e = .restart mem p → ∀ q ∈ next.content.races, q.execId < next.currExecId
  exec : ∀ call, e = .call call → next.currExecId = db.currExecId

/-- The identifiers of executions last for the events to come. -/
structure ExecsLeft (runs : ℕ) (created : Bool) (rest : List DbEvent) (db : RaceDB) : Prop where
  bound : db.currExecId + racingRuns created rest ≤ runs + 1
  left : racingRuns created rest ≤ runs
  unused : created = false → ∀ q ∈ db.content.races, q.execId < db.currExecId

/-- What holds before an event. -/
structure StepInv (sinfo : StaticInfo) (keys : Finset (InstId × RaceEventType))
    (pairs : Finset (List (InstId × RaceEventType))) (runs : ℕ) (rest : List DbEvent) (db : RaceDB) : Prop where
  inv : db.Inv sinfo
  among : Among keys pairs db
  execs : ∃ created, ExecsLeft runs created rest db

section
variable {sinfo : StaticInfo} {keys : Finset (InstId × RaceEventType)}
  {pairs : Finset (List (InstId × RaceEventType))} {runs : ℕ} {e : DbEvent} {rest : List DbEvent} {db : RaceDB}

theorem Inv.execs_content (inv : db.Inv sinfo) : ∀ q ∈ db.content.races, q.execId ≤ db.currExecId := by
  intro q member
  obtain ⟨r, stored, rfl⟩ := List.mem_map.mp member
  exact inv.execs r stored

/-- What a static race is about can be read off the content. -/
theorem EventsInv.map_key (inv : db.EventsInv sinfo) {vec : List StaticRaceEvent}
    (stored : ∀ e ∈ vec, db.HasEvent e) :
    (vec.map (·.key)).map some = (vec.map (·.id)).map db.content.event := by
  rw [List.map_map, List.map_map]
  apply List.map_congr_left
  intro e member
  exact (inv.content_event.mpr ⟨e, stored e member, rfl, rfl⟩).symm

/-- A database of the same content is about the same. -/
theorem Among.of_content {next : RaceDB} (among : Among keys pairs db) (inv : db.Inv sinfo)
    (nextInv : next.Inv sinfo) (same : next.content = db.content) : Among keys pairs next := by
  constructor
  · intro e has
    have said := nextInv.events.content_event.mpr ⟨e, has, rfl, rfl⟩
    rw [same] at said
    obtain ⟨f, has', -, key⟩ := inv.events.content_event.mp said
    exact key ▸ among.events f has'
  · intro i r found
    have said : next.content.race i = some (r.eventVec.map (·.id)) := content_race.mpr ⟨r, found, rfl⟩
    rw [same] at said
    obtain ⟨s, found', ids⟩ := content_race.mp said
    have keysOf := nextInv.events.map_key (nextInv.races.events i r found)
    rw [same, ← ids, ← inv.events.map_key (inv.races.events i s found')] at keysOf
    have equal := List.map_injective_iff.mpr (Option.some_injective _) keysOf
    rw [equal]
    exact among.races i s found'

theorem StepInv.create {r : RaceReport} (inv : StepInv sinfo keys pairs runs (.call (.createRace r) :: rest) db)
    (allowed : Allows sinfo db (.call (.createRace r))) (fewEvents : keys.card ≤ 2 ^ 32)
    (fewRaces : pairs.card ≤ 2 ^ 32) (key0 : (r.i0, r.p0) ∈ keys) (key1 : (r.i1, r.p1) ∈ keys)
    (pair : [(r.i0, r.p0), (r.i1, r.p1)] ∈ pairs) :
    StepInv sinfo keys pairs runs rest (db.createRace r).1 ∧
      Advances (.call (.createRace r)) db (db.createRace r).1 := by
  have made := createRace_spec inv.inv inv.among fewEvents fewRaces allowed.1 allowed.2 key0 key1 pair
  obtain ⟨exec, same⟩ := made.exec
  obtain ⟨created, left⟩ := inv.execs
  refine ⟨⟨made.inv, made.among, true, ⟨?_, left.left, nofun⟩⟩, made.within, ?_, fun other => absurd rfl (other r),
    nofun, nofun, fun _ _ => same⟩
  · rw [same]
    exact left.bound
  · rintro r' called
    cases called
    exact ⟨_, made.races, made.describes, exec.trans same.symm⟩

theorem StepInv.setRacyInst {inst : InstId}
    (inv : StepInv sinfo keys pairs runs (.call (.setRacyInst inst) :: rest) db) (has : sinfo.Has inst) :
    StepInv sinfo keys pairs runs rest (db.setRacyInst inst) ∧
      Advances (.call (.setRacyInst inst)) db (db.setRacyInst inst) := by
  have racy_iff : ∀ other, other ∈ (db.setRacyInst inst).racyInstSet ↔ inst = other ∨ other ∈ db.racyInstSet := by
    intro other
    simp [RaceDB.setRacyInst]
  obtain ⟨created, left⟩ := inv.execs
  refine ⟨⟨⟨⟨inv.inv.events.sound, inv.inv.events.ptrs, inv.inv.events.allocated, inv.inv.events.insts⟩,
    inv.inv.eventsDense, ⟨inv.inv.races.sound, inv.inv.races.events⟩, inv.inv.racesDense, inv.inv.raceVec,
    inv.inv.execs, fun other member => ?_⟩, ⟨inv.among.events, inv.among.races⟩, created,
    ⟨left.bound, left.left, left.unused⟩⟩, ⟨fun _ _ => id, fun _ _ => id, List.prefix_rfl, fun other racy => ?_⟩,
    nofun, fun _ => rfl, fun other called => ?_, nofun, fun _ _ => rfl⟩
  · rcases (racy_iff other).mp member with rfl | before
    · exact has
    · exact inv.inv.racy other before
  · exact (racy_iff other).mpr (Or.inr racy)
  · cases called
    exact (racy_iff inst).mpr (Or.inl rfl)

theorem StepInv.restart {mem : Memory} {p : RaceDBProto}
    (inv : StepInv sinfo keys pairs runs (.restart mem p :: rest) db)
    (reordered : p.Reordered (db.save sinfo)) (fewRuns : runs + 1 < 2 ^ 31) :
    ∃ next, load sinfo mem p = some next ∧ StepInv sinfo keys pairs runs rest next ∧
      Advances (.restart mem p) db next := by
  obtain ⟨created, left⟩ := inv.execs
  have bound := left.bound
  have remaining := left.left
  simp only [racingRuns] at bound remaining
  have used : ∀ q ∈ db.content.races, q.execId + 1 + racingRuns false rest ≤ runs + 1 := by
    intro q member
    cases created with
    | false =>
      have before := left.unused rfl q member
      simp only [Bool.toNat_false] at bound
      omega
    | true =>
      have before := inv.inv.execs_content q member
      simp only [Bool.toNat_true] at bound
      omega
  obtain ⟨next, ran, loaded⟩ := load_spec inv.inv reordered mem fun q member => by
    have := used q member
    omega
  refine ⟨next, ran,
    ⟨loaded.inv, inv.among.of_content inv.inv loaded.inv loaded.content, false, ⟨?_, by omega, fun _ => loaded.newer⟩⟩,
    ?_, nofun,
    fun _ => by rw [loaded.content], nofun, fun _ _ _ => loaded.newer, nofun⟩
  · rcases loaded.next with first | ⟨q, member, same⟩
    · omega
    · have := used q member
      omega
  · rw [loaded.content]
    exact .refl _

variable {tr : List DbEvent} {mem : Memory} {n m : ℕ}

theorem eventKeys_mem {r : RaceReport} (member : .call (.createRace r) ∈ tr) :
    (r.i0, r.p0) ∈ (eventKeys tr).toFinset ∧ (r.i1, r.p1) ∈ (eventKeys tr).toFinset := by
  simp only [eventKeys, List.mem_toFinset, List.mem_flatMap]
  exact ⟨⟨_, member, by simp⟩, _, member, by simp⟩

theorem raceKeys_mem {r : RaceReport} (member : .call (.createRace r) ∈ tr) :
    [(r.i0, r.p0), (r.i1, r.p1)] ∈ (raceKeys tr).toFinset := by
  simp only [raceKeys, List.mem_toFinset, List.mem_flatMap]
  exact ⟨_, member, by simp⟩

/-- A trace whose static events, static races and runs have enough identifiers. -/
structure Fits (tr : List DbEvent) : Prop where
  events : (eventKeys tr).toFinset.card ≤ 2 ^ 32
  races : (raceKeys tr).toFinset.card ≤ 2 ^ 32
  runs : racingRuns false tr + 1 < 2 ^ 31

/-- What holds before the `n`th event. -/
def InvAt (sinfo : StaticInfo) (tr : List DbEvent) (n : ℕ) (db : RaceDB) : Prop :=
  StepInv sinfo (eventKeys tr).toFinset (raceKeys tr).toFinset (racingRuns false tr) (tr.drop n) db

theorem InvAt.step (fits : Fits tr) (inv : InvAt sinfo tr n db) (here : tr[n]? = some e)
    (allowed : Allows sinfo db e) :
    ∃ next out, step sinfo db e = some (next, out) ∧ InvAt sinfo tr (n + 1) next ∧ Advances e db next := by
  obtain ⟨bound, same⟩ := List.getElem?_eq_some_iff.mp here
  rw [InvAt, List.drop_eq_getElem_cons bound, same] at inv
  have member := List.mem_of_getElem? here
  match e with
  | .call (.createRace r) =>
    obtain ⟨key0, key1⟩ := eventKeys_mem member
    obtain ⟨kept, advances⟩ := inv.create allowed fits.events fits.races key0 key1 (raceKeys_mem member)
    exact ⟨_, _, rfl, kept, advances⟩
  | .call (.setRacyInst inst) =>
    obtain ⟨kept, advances⟩ := inv.setRacyInst allowed
    exact ⟨_, _, rfl, kept, advances⟩
  | .restart mem p =>
    obtain ⟨next, ran, kept, advances⟩ := inv.restart allowed fits.runs
    exact ⟨next, none, by rw [RaceDB.step, ran]; rfl, kept, advances⟩

theorem hasEvent_fresh (mem : Memory) (e : StaticRaceEvent) : ¬ ({ mem := mem } : RaceDB).HasEvent e := by
  simp [HasEvent]

theorem inv_fresh (sinfo : StaticInfo) (mem : Memory) : ({ mem := mem } : RaceDB).Inv sinfo where
  events := ⟨.empty, fun e f has => absurd has (hasEvent_fresh mem e),
    fun e has => absurd has (hasEvent_fresh mem e), fun e has => absurd has (hasEvent_fresh mem e)⟩
  eventsDense := .empty
  races := ⟨.empty, fun i r found => by simp at found⟩
  racesDense := .empty
  raceVec r member := nomatch member
  execs r member := nomatch member
  racy inst member := by simp at member

theorem invAt_zero (tr : List DbEvent) : InvAt sinfo tr 0 { mem := mem } where
  inv := inv_fresh sinfo mem
  among := ⟨fun e has => absurd has (hasEvent_fresh mem e), fun i r found => by simp at found⟩
  execs := ⟨false, by simp, by simp, fun _ q member => nomatch member⟩

theorem exists_at (fits : Fits tr) (allowed : Runs.Along (RaceDB.step sinfo) (Allows sinfo) { mem := mem } tr)
    (bound : n ≤ tr.length) : ∃ db, At sinfo { mem := mem } tr n db ∧ InvAt sinfo tr n db := by
  apply Runs.exists_at (InvAt sinfo tr) (invAt_zero tr) _ allowed bound
  intro n db e here inv allowed
  obtain ⟨next, out, stepped, kept, _⟩ := inv.step fits here allowed
  exact ⟨next, out, stepped, kept⟩

theorem At.unique {other : RaceDB} (first : At sinfo { mem := mem } tr n db)
    (second : At sinfo { mem := mem } tr n other) : db = other :=
  Runs.At.unique first second

/-- The states before and behind an event. -/
theorem advances_at {next : RaceDB} (fits : Fits tr)
    (allowed : Runs.Along (RaceDB.step sinfo) (Allows sinfo) { mem := mem } tr) (here : tr[n]? = some e)
    (before : At sinfo { mem := mem } tr n db) (after : At sinfo { mem := mem } tr (n + 1) next) :
    Advances e db next := by
  obtain ⟨bound, -⟩ := List.getElem?_eq_some_iff.mp here
  obtain ⟨db', reached, inv⟩ := exists_at fits allowed bound.le
  obtain rfl := before.unique reached
  obtain ⟨outs, ran⟩ := before
  obtain ⟨next', out, stepped, _, advances⟩ := inv.step fits here (Runs.along_at allowed ran here)
  have reached' : At sinfo { mem := mem } tr (n + 1) next' := Runs.At.succ ⟨outs, ran⟩ here stepped
  rwa [after.unique reached']

theorem At.last (beyond : tr[n]? = none) (reached : At sinfo { mem := mem } tr (n + 1) db) :
    At sinfo { mem := mem } tr n db :=
  Runs.At.last beyond reached

theorem within_at {next : RaceDB} (fits : Fits tr)
    (allowed : Runs.Along (RaceDB.step sinfo) (Allows sinfo) { mem := mem } tr) (later : n ≤ m)
    (before : At sinfo { mem := mem } tr n db) (after : At sinfo { mem := mem } tr m next) :
    db.content.Within next.content := by
  apply Runs.advance_at (R := fun db next : RaceDB => db.content.Within next.content)
    (fun db => .refl db.content) (fun _ _ _ => .trans) _ _ later before after
  · intro n bound
    obtain ⟨db, reached, _⟩ := exists_at fits allowed bound
    exact ⟨db, reached⟩
  · exact fun n e before after here reached reached' => (advances_at fits allowed here reached reached').within

/-- Behind a restart, the races from before it have smaller identifiers of executions. -/
theorem newer_at {next : RaceDB} {p : RaceDBProto} {mem' : Memory} {k : ℕ} (fits : Fits tr)
    (allowed : Runs.Along (RaceDB.step sinfo) (Allows sinfo) { mem := mem } tr)
    (restart : tr[k]? = some (.restart mem' p)) (before : At sinfo { mem := mem } tr k db) (later : k + 1 ≤ m)
    (after : At sinfo { mem := mem } tr m next) : ∀ q ∈ db.content.races, q.execId < next.currExecId := by
  induction m, later using Nat.le_induction generalizing next with
  | base =>
    intro q member
    have advances := advances_at fits allowed restart before after
    exact advances.restart _ _ rfl q (advances.within.races.subset member)
  | succ m later ih =>
    cases here : tr[m]? with
    | none => exact ih (after.last here)
    | some e =>
      obtain ⟨bound, -⟩ := List.getElem?_eq_some_iff.mp here
      obtain ⟨middle, reached, _⟩ := exists_at fits allowed bound.le
      have advances := advances_at fits allowed here reached after
      intro q member
      match e with
      | .call call =>
        rw [advances.exec call rfl]
        exact ih reached q member
      | .restart mem p =>
        have kept := within_at fits allowed (Nat.le_of_succ_le later) before reached
        exact advances.restart mem p rfl q (advances.within.races.subset (kept.races.subset member))

/-- While identifiers last, the database keeps every event, race and racy instruction
under one identifier, in order, and tells the runs of races apart. -/
theorem raceDB_persists (allowed : Runs.Along (RaceDB.step sinfo) (Allows sinfo) { mem := mem } tr)
    (fits : Fits tr) : Persistent sinfo { mem := mem } tr where
  runs n bound := by
    obtain ⟨db, reached, _⟩ := exists_at fits allowed bound
    exact ⟨db, reached⟩
  interned n db reached := by
    induction n with
    | zero =>
      obtain rfl := reached.unique ⟨[], rfl⟩
      exact (inv_fresh sinfo mem).interned
    | succ n ih =>
      cases here : tr[n]? with
      | none => exact ih (reached.last here)
      | some e =>
        obtain ⟨bound, -⟩ := List.getElem?_eq_some_iff.mp here
        obtain ⟨db', reached', inv⟩ := exists_at fits allowed bound
        rw [reached.unique reached']
        exact inv.inv.interned
  kept n m before after later := within_at fits allowed later
  created n r before after here reached reached' := by
    obtain ⟨p, races, describes, _⟩ := (advances_at fits allowed here reached reached').created r rfl
    exact ⟨p, races, describes⟩
  others n e before after here other reached reached' :=
    (advances_at fits allowed here reached reached').others other
  racy n inst after here reached' := by
    obtain ⟨bound, -⟩ := List.getElem?_eq_some_iff.mp here
    obtain ⟨before, reached, _⟩ := exists_at fits allowed bound.le
    exact (advances_at fits allowed here reached reached').racy inst rfl
  execs n k m r r' mem' p before after q q' first second created restart again reached reached' last last' := by
    obtain ⟨bound, -⟩ := List.getElem?_eq_some_iff.mp restart
    obtain ⟨bound', -⟩ := List.getElem?_eq_some_iff.mp again
    obtain ⟨atRestart, reachedRestart, _⟩ := exists_at fits allowed bound.le
    obtain ⟨middle, reachedMiddle, _⟩ := exists_at fits allowed bound'.le
    have kept := within_at fits allowed first reached reachedRestart
    have member := kept.races.subset (List.mem_of_getLast? last)
    have older := newer_at fits allowed restart reachedRestart second reachedMiddle q member
    have advances := advances_at fits allowed again reachedMiddle reached'
    obtain ⟨q'', races, -, exec⟩ := advances.created r' rfl
    rw [races, List.getLast?_concat] at last'
    rw [← Option.some.inj last', exec, advances.exec _ rfl]
    exact older.ne

/-- Instructions whose identity is their identifier. -/
def plainInfo : StaticInfo := ⟨fun id => some id.toNat, fun inst => BitVec.ofNat 32 inst⟩

/-- Each instruction below `2 ^ 17` with each. -/
def pairAt (n : ℕ) : RaceReport := ⟨0, 1, n / 2 ^ 17, .read, 2, n % 2 ^ 17, .write⟩

def distinctRaces (count : ℕ) : List DbEvent := (List.range count).map fun n => .call (.createRace (pairAt n))

/-- A table with identifiers of 32 bits cannot hold more static races. -/
theorem not_persistent_of_many {count : ℕ} (many : 2 ^ 32 < count) (start : RaceDB) :
    ¬ Persistent sinfo start (distinctRaces count) := by
  intro persistent
  have length : (distinctRaces count).length = count := by simp [distinctRaces]
  obtain ⟨last, reached⟩ := persistent.runs count length.ge
  have stored : ∀ n : Fin count, ∃ p, last.content.Describes p (pairAt n) := by
    intro n
    have here : (distinctRaces count)[n.val]? = some (.call (.createRace (pairAt n))) := by
      simp [distinctRaces]
    obtain ⟨before, reachedBefore⟩ := persistent.runs n (by rw [length]; exact n.isLt.le)
    obtain ⟨after, reachedAfter⟩ := persistent.runs (n + 1) (by rw [length]; exact n.isLt)
    obtain ⟨p, -, describes⟩ := persistent.created n _ before after here reachedBefore reachedAfter
    exact ⟨p, describes.within (persistent.kept _ _ after last n.isLt reachedAfter reached)⟩
  choose p describes using stored
  have injective : Function.Injective fun n => (p n).staticId.toFin := by
    intro n k same
    have ids : (p n).staticId = (p k).staticId := BitVec.toFin_inj.mp same
    obtain ⟨-, id0, id1, -, first, second, race⟩ := describes n
    obtain ⟨-, id0', id1', -, first', second', race'⟩ := describes k
    rw [ids, race'] at race
    cases race
    rw [first'] at first
    rw [second'] at second
    simp only [pairAt, Option.some.injEq, Prod.mk.injEq, and_true] at first second
    have quotients : k.val / 2 ^ 17 = n.val / 2 ^ 17 := first
    have remainders : k.val % 2 ^ 17 = n.val % 2 ^ 17 := second
    exact Fin.ext (by omega)
  have fits := Fintype.card_le_of_injective _ injective
  rw [Fintype.card_fin, Fintype.card_fin] at fits
  exact absurd fits (Nat.not_le.mpr many)

theorem distinctRaces_allowed {count : ℕ} (few : count ≤ 2 ^ 34) (start : RaceDB) :
    Runs.Along (RaceDB.step plainInfo) (Allows plainInfo) start (distinctRaces count) := by
  apply Runs.along_of_mem
  intro e member db
  obtain ⟨n, inside, rfl⟩ := List.mem_map.mp member
  have small : n < 2 ^ 34 := Nat.lt_of_lt_of_le (List.mem_range.mp inside) few
  have has : ∀ inst : ℕ, inst < 2 ^ 32 → plainInfo.Has inst := by
    intro inst bound
    change some (BitVec.toNat (BitVec.ofNat 32 inst)) = some inst
    rw [BitVec.toNat_ofNat, Nat.mod_eq_of_lt bound]
  have quotient : n / 2 ^ 17 < 2 ^ 32 := by omega
  have remainder : n % 2 ^ 17 < 2 ^ 32 := by omega
  exact ⟨has _ quotient, has _ remainder⟩

/-- A process where all addresses have one hash. -/
def flatMemory : Memory := ⟨fun _ => 0, fun _ => 0⟩

/-- More static races than identifiers. -/
@[irreducible] def tooMany : ℕ := 2 ^ 32 + 1

theorem tooMany_eq : tooMany = 2 ^ 32 + 1 := by rw [tooMany]

/-- A run that creates `2 ^ 32 + 1` different static races. -/
theorem raceDB_wraps :
    Runs.Along (RaceDB.step plainInfo) (Allows plainInfo) { mem := flatMemory } (distinctRaces tooMany) ∧
      ¬ Persistent plainInfo { mem := flatMemory } (distinctRaces tooMany) := by
  constructor
  · apply distinctRaces_allowed
    rw [tooMany_eq]
    omega
  · apply not_persistent_of_many
    rw [tooMany_eq]
    omega

/-- A race, a restart in another process, and the same race again. -/
def reloadTrace : List DbEvent :=
  [.call (.createRace ⟨8, 1, 7, .write, 2, 9, .read⟩), .call (.setRacyInst 7),
    .restart ⟨fun inst => BitVec.ofNat 64 inst, fun ptr => BitVec.ofNat 64 ptr⟩
      { staticEvent := [⟨2, 9, .read⟩, ⟨1, 7, .write⟩]
        staticRace := [⟨1, [1, 2]⟩]
        race := [⟨0, 8, [⟨1, 1⟩, ⟨2, 2⟩], 1⟩]
        racyInstId := [7] },
    .call (.createRace ⟨12, 1, 7, .write, 2, 9, .read⟩)]

theorem raceDB_persists_reload : Persistent plainInfo { mem := flatMemory } reloadTrace :=
  raceDB_persists (by decide +kernel) ⟨by decide, by decide, by decide⟩

end
end RaceDB
end Maple.Race
