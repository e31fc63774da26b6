import Maple.Race.Db

/-! What the race database keeps. Its content is independent of the process: the
calls only extend it, and a load restores it. -/
namespace Maple.Race

/-- What a database says. -/
structure Content where
  event : BitVec 32 → Option (InstId × RaceEventType)
  race : BitVec 32 → Option (List (BitVec 32))
  races : List RaceProto
  racy : InstId → Prop

def RaceDB.content (db : RaceDB) : Content where
  event i := db.staticEvents.byId[i]?.map (·.key)
  race i := db.staticRaces.byId[i]?.map fun r => r.eventVec.map (·.id)
  races := db.raceVec.map Race.toProto
  racy inst := inst ∈ db.racyInstSet

/-- Nothing is lost or changed, and races are only appended. -/
structure Content.Within (c d : Content) : Prop where
  event : ∀ i k, c.event i = some k → d.event i = some k
  race : ∀ i k, c.race i = some k → d.race i = some k
  races : c.races <+: d.races
  racy : ∀ inst, c.racy inst → d.racy inst

/-- Static events and static races have one identifier each. -/
structure Content.Interned (c : Content) : Prop where
  event : ∀ i j k, c.event i = some k → c.event j = some k → i = j
  race : ∀ i j k, c.race i = some k → c.race j = some k → i = j

/-- A stored race says what was reported. -/
def Content.Describes (c : Content) (p : RaceProto) (r : RaceReport) : Prop :=
  p.addr = r.addr ∧ ∃ id0 id1, p.event = [⟨r.t0, id0⟩, ⟨r.t1, id1⟩] ∧ c.event id0 = some (r.i0, r.p0) ∧
    c.event id1 = some (r.i1, r.p1) ∧ c.race p.staticId = some [id0, id1]

theorem Content.Within.refl (c : Content) : c.Within c :=
  ⟨fun _ _ found => found, fun _ _ found => found, List.prefix_rfl, fun _ racy => racy⟩

theorem Content.Within.trans {c d e : Content} (first : c.Within d) (second : d.Within e) : c.Within e :=
  ⟨fun i k found => second.event i k (first.event i k found),
    fun i k found => second.race i k (first.race i k found), first.races.trans second.races,
    fun inst racy => second.racy inst (first.racy inst racy)⟩

theorem Content.Describes.within {c d : Content} {p : RaceProto} {r : RaceReport} (describes : c.Describes p r)
    (within : c.Within d) : d.Describes p r := by
  obtain ⟨addr, id0, id1, events, first, second, race⟩ := describes
  exact ⟨addr, id0, id1, events, within.event _ _ first, within.event _ _ second, within.race _ _ race⟩

namespace RaceDB
variable {sinfo : StaticInfo} {db old : RaceDB} {inst : InstId} {type : RaceEventType}

/-- The event is the one with its identifier. -/
def HasEvent (db : RaceDB) (e : StaticRaceEvent) : Prop := db.staticEvents.byId[e.id]? = some e

/-- Different events have different pointers. -/
structure EventsInv (sinfo : StaticInfo) (db : RaceDB) : Prop where
  sound : db.staticEvents.Sound (·.id) StaticRaceEvent.key (StaticRaceEvent.hash db.mem)
  ptrs : ∀ e f, db.HasEvent e → db.HasEvent f → e.ptr = f.ptr → e = f
  allocated : ∀ e, db.HasEvent e → e.ptr < db.allocated
  insts : ∀ e, db.HasEvent e → sinfo.Has e.inst

structure RacesInv (db : RaceDB) : Prop where
  sound : db.staticRaces.Sound (·.id) StaticRace.key (StaticRace.hash db.mem)
  events : ∀ (i : BitVec 32) r, db.staticRaces.byId[i]? = some r → ∀ e ∈ r.eventVec, db.HasEvent e

structure Inv (sinfo : StaticInfo) (db : RaceDB) : Prop where
  events : db.EventsInv sinfo
  eventsDense : db.staticEvents.Dense
  races : db.RacesInv
  racesDense : db.staticRaces.Dense
  raceVec : ∀ r ∈ db.raceVec, (∀ e ∈ r.eventVec, db.HasEvent e.staticEvent) ∧
    db.staticRaces.byId[r.staticRace.id]? = some r.staticRace
  execs : ∀ r ∈ db.raceVec, r.execId ≤ db.currExecId
  racy : ∀ inst ∈ db.racyInstSet, sinfo.Has inst

/-- Lists are equal if their images under a map that is injective on them are. -/
theorem eq_of_map_eq {A B : Type} {f : A → B} {P : A → Prop} (injective : ∀ a b, P a → P b → f a = f b → a = b)
    {u v : List A} (left : ∀ a ∈ u, P a) (right : ∀ a ∈ v, P a) (same : u.map f = v.map f) : u = v := by
  induction u generalizing v with
  | nil => exact (List.map_eq_nil_iff.mp same.symm).symm
  | cons a u ih =>
    cases v with
    | nil => exact nomatch same
    | cons b v =>
      obtain ⟨head, left⟩ := List.forall_mem_cons.mp left
      obtain ⟨head', right⟩ := List.forall_mem_cons.mp right
      simp only [List.map_cons, List.cons.injEq] at same
      rw [injective a b head head' same.1, ih left right same.2]

theorem EventsInv.of_id (inv : db.EventsInv sinfo) {i : BitVec 32} {e : StaticRaceEvent}
    (found : db.staticEvents.byId[i]? = some e) : db.HasEvent e := by
  have own := inv.sound.ids i e found
  rwa [HasEvent, own]

theorem HasEvent.ids {e f : StaticRaceEvent} (first : db.HasEvent e) (second : db.HasEvent f)
    (same : e.id = f.id) : e = f := by
  rw [HasEvent, same] at first
  exact Option.some.inj (first.symm.trans second)

theorem EventsInv.keys (inv : db.EventsInv sinfo) {e f : StaticRaceEvent} (first : db.HasEvent e)
    (second : db.HasEvent f) (same : e.key = f.key) : e = f :=
  first.ids second (inv.sound.keys _ _ _ _ first second same)

theorem EventsInv.content_event (inv : db.EventsInv sinfo) {i : BitVec 32} {key : InstId × RaceEventType} :
    db.content.event i = some key ↔ ∃ e, db.HasEvent e ∧ e.id = i ∧ e.key = key := by
  refine Option.map_eq_some_iff.trans ⟨?_, ?_⟩
  · rintro ⟨e, stored, same⟩
    exact ⟨e, inv.of_id stored, inv.sound.ids i e stored, same⟩
  · rintro ⟨e, stored, rfl, same⟩
    exact ⟨e, stored, same⟩

theorem content_race {i : BitVec 32} {ids : List (BitVec 32)} : db.content.race i = some ids ↔
    ∃ r, db.staticRaces.byId[i]? = some r ∧ r.eventVec.map (·.id) = ids := Option.map_eq_some_iff

/-- Static races with the same events are the same. -/
theorem RacesInv.unique (races : db.RacesInv) {i j : BitVec 32} {r s : StaticRace}
    (first : db.staticRaces.byId[i]? = some r) (second : db.staticRaces.byId[j]? = some s)
    (same : r.eventVec = s.eventVec) : i = j :=
  races.sound.keys i j r s first second (by rw [StaticRace.key, same, StaticRace.key])

theorem Inv.interned (inv : db.Inv sinfo) : db.content.Interned where
  event i j k first second := by
    obtain ⟨e, found, key⟩ := Option.map_eq_some_iff.mp first
    obtain ⟨f, found', key'⟩ := Option.map_eq_some_iff.mp second
    exact inv.events.sound.keys i j e f found found' (key.trans key'.symm)
  race i j k first second := by
    obtain ⟨r, found, ids⟩ := Option.map_eq_some_iff.mp first
    obtain ⟨s, found', ids'⟩ := Option.map_eq_some_iff.mp second
    apply inv.races.unique found found'
    exact eq_of_map_eq (fun e f => HasEvent.ids) (inv.races.events i r found)
      (inv.races.events j s found') (ids.trans ids'.symm)

/-- What `GetStaticRaceEvent` does. -/
structure GotEvent (sinfo : StaticInfo) (db : RaceDB) (key : InstId × RaceEventType)
    (result : RaceDB × StaticRaceEvent) : Prop where
  inv : result.1.EventsInv sinfo
  dense : result.1.staticEvents.Dense
  has : result.1.HasEvent result.2
  key : result.2.key = key
  kept : ∀ e, db.HasEvent e → result.1.HasEvent e
  origin : ∀ e, result.1.HasEvent e → db.HasEvent e ∨ e = result.2

theorem getStaticRaceEvent_spec (inv : db.EventsInv sinfo) (dense : db.staticEvents.Dense)
    (has : sinfo.Has inst) (room : (∀ e, db.HasEvent e → e.key ≠ (inst, type)) → ∃ i, i ∉ db.staticEvents.byId) :
    GotEvent sinfo db (inst, type) (db.getStaticRaceEvent inst type) := by
  have got := Interning.Table.get_spec inv.sound dense (k := (inst, type))
    (fun e => e.key = (inst, type)) (fun e => decide_eq_true_iff)
    (fun id => ⟨db.allocated, id, inst, type⟩) (fun _ => rfl) (fun _ => rfl) (fun new =>
      room fun e found => new e.id e found)
  have origin : ∀ e, (db.getStaticRaceEvent inst type).1.HasEvent e →
      db.HasEvent e ∨ e = (db.getStaticRaceEvent inst type).2 := fun e found => got.origin e.id e found
  have below : ∀ e, (db.getStaticRaceEvent inst type).1.HasEvent e → db.HasEvent e ∨
      e = (db.getStaticRaceEvent inst type).2 ∧ e.ptr = db.allocated := by
    intro e found
    rcases origin e found with before | rfl
    · exact Or.inl before
    · rcases got.value with before | ⟨i, made⟩
      · exact Or.inl before
      · exact Or.inr ⟨rfl, congrArg StaticRaceEvent.ptr made⟩
  refine ⟨⟨got.sound, fun e f first second same => ?_, fun e found => ?_, fun e found => ?_⟩, got.dense,
    got.stored, got.key, fun e found => got.kept e.id e found, origin⟩
  · rcases below e first with before | ⟨rfl, ptr⟩
    · rcases below f second with before' | ⟨rfl, ptr'⟩
      · exact inv.ptrs e f before before' same
      · exact absurd (same.trans ptr') (inv.allocated e before).ne
    · rcases below f second with before' | ⟨rfl, ptr'⟩
      · exact absurd (same.symm.trans ptr) (inv.allocated f before').ne
      · rfl
  · rcases below e found with before | ⟨-, ptr⟩
    · exact Nat.lt_succ_of_lt (inv.allocated e before)
    · exact ptr ▸ Nat.lt_succ_self _
  · rcases origin e found with before | rfl
    · exact inv.insts e before
    · have same : (db.getStaticRaceEvent inst type).2.inst = inst := congrArg Prod.fst got.key
      rwa [same]

/-- What `GetStaticRace` does. -/
structure GotRace (db : RaceDB) (events : List StaticRaceEvent) (result : RaceDB × StaticRace) : Prop where
  inv : result.1.RacesInv
  dense : result.1.staticRaces.Dense
  has : result.1.staticRaces.byId[result.2.id]? = some result.2
  events : result.2.eventVec = events
  kept : ∀ (i : BitVec 32) r, db.staticRaces.byId[i]? = some r → result.1.staticRaces.byId[i]? = some r
  origin : ∀ (i : BitVec 32) r, result.1.staticRaces.byId[i]? = some r →
    db.staticRaces.byId[i]? = some r ∨ r = result.2

theorem getStaticRace_spec {e0 e1 : StaticRaceEvent} (events : db.EventsInv sinfo) (inv : db.RacesInv)
    (dense : db.staticRaces.Dense) (first : db.HasEvent e0) (second : db.HasEvent e1)
    (room : (∀ (i : BitVec 32) r, db.staticRaces.byId[i]? = some r → r.eventVec ≠ [e0, e1]) →
      ∃ i, i ∉ db.staticRaces.byId) : GotRace db [e0, e1] (db.getStaticRace e0 e1) := by
  have got := Interning.Table.get_spec inv.sound dense (k := [e0.ptr, e1.ptr])
    (fun r => r.key = [e0.ptr, e1.ptr]) (fun r => decide_eq_true_iff) (fun id => ⟨id, [e0, e1]⟩)
    (fun _ => rfl) (fun _ => rfl) (fun new => room fun i r found same =>
      new i r found (by rw [StaticRace.key, same]; rfl))
  have pair : ∀ e ∈ [e0, e1], db.HasEvent e := by
    simp only [List.mem_cons, List.not_mem_nil, or_false, forall_eq_or_imp, forall_eq]
    exact ⟨first, second⟩
  have same : (db.getStaticRace e0 e1).2.eventVec = [e0, e1] := by
    rcases got.value with before | ⟨i, made⟩
    · exact eq_of_map_eq (fun e f => events.ptrs e f) (inv.events _ _ before) pair got.key
    · exact congrArg StaticRace.eventVec made
  refine ⟨⟨got.sound, fun i r found e member => ?_⟩, got.dense, got.stored, same, got.kept, got.origin⟩
  rcases got.origin i r found with before | rfl
  · exact inv.events i r before e member
  · exact pair e (same ▸ member)

/-- All static events and races are among those given, which have enough identifiers. -/
structure Among (keys : Finset (InstId × RaceEventType)) (pairs : Finset (List (InstId × RaceEventType)))
    (db : RaceDB) : Prop where
  events : ∀ e, db.HasEvent e → e.key ∈ keys
  races : ∀ (i : BitVec 32) r, db.staticRaces.byId[i]? = some r → r.eventVec.map (·.key) ∈ pairs

section Create
variable {keys : Finset (InstId × RaceEventType)} {pairs : Finset (List (InstId × RaceEventType))}

theorem EventsInv.room (inv : db.EventsInv sinfo) (among : ∀ e, db.HasEvent e → e.key ∈ keys)
    (few : keys.card ≤ 2 ^ 32) {key : InstId × RaceEventType} (member : key ∈ keys)
    (new : ∀ e, db.HasEvent e → e.key ≠ key) : ∃ i, i ∉ db.staticEvents.byId :=
  Interning.Table.exists_room _ inv.sound.keys (fun _ e found => among e (inv.of_id found)) member
    (fun _ e found => new e (inv.of_id found)) few

theorem RacesInv.room (events : db.EventsInv sinfo) (inv : db.RacesInv)
    (among : ∀ (i : BitVec 32) r, db.staticRaces.byId[i]? = some r → r.eventVec.map (·.key) ∈ pairs)
    (few : pairs.card ≤ 2 ^ 32) {vec : List StaticRaceEvent} (stored : ∀ e ∈ vec, db.HasEvent e)
    (member : vec.map (·.key) ∈ pairs)
    (new : ∀ (i : BitVec 32) r, db.staticRaces.byId[i]? = some r → r.eventVec ≠ vec) :
    ∃ i, i ∉ db.staticRaces.byId := by
  have equal : ∀ (i : BitVec 32) r vec, db.staticRaces.byId[i]? = some r → (∀ e ∈ vec, db.HasEvent e) →
      r.eventVec.map (·.key) = vec.map (·.key) → r.eventVec = vec := fun i r vec found stored =>
    eq_of_map_eq (fun e f => events.keys) (inv.events i r found) stored
  apply Interning.Table.exists_room (fun r : StaticRace => r.eventVec.map (·.key)) ?_ among member ?_ few
  · intro i j r s found found' same
    exact inv.unique found found' (equal i r _ found (inv.events j s found') same)
  · intro i r found same
    exact new i r found (equal i r vec found stored same)

/-- What `CreateRace` does. -/
structure Created (sinfo : StaticInfo) (keys : Finset (InstId × RaceEventType))
    (pairs : Finset (List (InstId × RaceEventType))) (db : RaceDB) (r : RaceReport) (result : RaceDB × Race) :
    Prop where
  inv : result.1.Inv sinfo
  among : Among keys pairs result.1
  within : db.content.Within result.1.content
  races : result.1.content.races = db.content.races ++ [result.2.toProto]
  describes : result.1.content.Describes result.2.toProto r
  exec : result.2.execId = db.currExecId ∧ result.1.currExecId = db.currExecId

theorem createRace_spec (inv : db.Inv sinfo) (among : Among keys pairs db) (fewEvents : keys.card ≤ 2 ^ 32)
    (fewRaces : pairs.card ≤ 2 ^ 32) {r : RaceReport} (has0 : sinfo.Has r.i0) (has1 : sinfo.Has r.i1)
    (key0 : (r.i0, r.p0) ∈ keys) (key1 : (r.i1, r.p1) ∈ keys) (pair : [(r.i0, r.p0), (r.i1, r.p1)] ∈ pairs) :
    Created sinfo keys pairs db r (db.createRace r) := by
  have got0 := getStaticRaceEvent_spec inv.events inv.eventsDense has0
    (inv.events.room among.events fewEvents key0)
  have among0 : ∀ e, (db.getStaticRaceEvent r.i0 r.p0).1.HasEvent e → e.key ∈ keys := by
    intro e found
    rcases got0.origin e found with before | rfl
    · exact among.events e before
    · rwa [got0.key]
  let result0 := db.getStaticRaceEvent r.i0 r.p0
  let result1 := result0.1.getStaticRaceEvent r.i1 r.p1
  let result2 := result1.1.getStaticRace result0.2 result1.2
  have got1 : GotEvent sinfo result0.1 (r.i1, r.p1) result1 :=
    getStaticRaceEvent_spec got0.inv got0.dense has1 (got0.inv.room among0 fewEvents key1)
  have among1 : ∀ e, result1.1.HasEvent e → e.key ∈ keys := by
    intro e found
    rcases got1.origin e found with before | rfl
    · exact among0 e before
    · rwa [got1.key]
  have kept : ∀ e, db.HasEvent e → result1.1.HasEvent e := fun e found => got1.kept e (got0.kept e found)
  have races1 : result1.1.RacesInv :=
    ⟨inv.races.sound, fun i s found e member => kept e (inv.races.events i s found e member)⟩
  have events : [result0.2, result1.2].map (·.key) = [(r.i0, r.p0), (r.i1, r.p1)] := by
    simp only [List.map_cons, List.map_nil, result0, got0.key, got1.key]
  have stored : ∀ e ∈ [result0.2, result1.2], result1.1.HasEvent e := by
    simp only [List.mem_cons, List.not_mem_nil, or_false, forall_eq_or_imp, forall_eq]
    exact ⟨got1.kept _ got0.has, got1.has⟩
  have got2 : GotRace result1.1 [result0.2, result1.2] result2 :=
    getStaticRace_spec got1.inv races1 inv.racesDense (got1.kept _ got0.has) got1.has
      (races1.room got1.inv among.races fewRaces stored (events ▸ pair))
  have events2 : (db.createRace r).1.EventsInv sinfo :=
    ⟨got1.inv.sound, got1.inv.ptrs, got1.inv.allocated, got1.inv.insts⟩
  have appended : (db.createRace r).1.content.races = db.content.races ++ [(db.createRace r).2.toProto] :=
    List.map_append ..
  refine ⟨⟨events2, got1.dense, ⟨got2.inv.sound, got2.inv.events⟩, got2.dense, ?_, ?_, inv.racy⟩,
    ⟨among1, ?_⟩, ⟨?_, ?_, ⟨_, appended.symm⟩, fun _ => id⟩, appended, ?_, rfl, rfl⟩
  · intro s member
    rcases List.mem_append.mp member with member | member
    · obtain ⟨events, race⟩ := inv.raceVec s member
      exact ⟨fun e inside => kept _ (events e inside), got2.kept _ _ race⟩
    · obtain rfl := List.mem_singleton.mp member
      refine ⟨?_, got2.has⟩
      simp only [List.mem_cons, List.not_mem_nil, or_false, forall_eq_or_imp, forall_eq]
      exact ⟨got1.kept _ got0.has, got1.has⟩
  · intro s member
    rcases List.mem_append.mp member with member | member
    · exact inv.execs s member
    · obtain rfl := List.mem_singleton.mp member
      exact Nat.le_refl _
  · intro i s found
    rcases got2.origin i s found with before | rfl
    · exact among.races i s before
    · rw [got2.events, events]
      exact pair
  · intro i key said
    obtain ⟨e, has, own⟩ := inv.events.content_event.mp said
    exact events2.content_event.mpr ⟨e, kept e has, own⟩
  · intro i ids said
    obtain ⟨s, found, same⟩ := content_race.mp said
    exact content_race.mpr ⟨s, got2.kept i s found, same⟩
  · refine ⟨rfl, result0.2.id, result1.2.id, rfl, ?_, ?_, ?_⟩
    · exact events2.content_event.mpr ⟨result0.2, got1.kept _ got0.has, rfl, got0.key⟩
    · exact events2.content_event.mpr ⟨result1.2, got1.has, rfl, got1.key⟩
    · exact content_race.mpr ⟨result2.2, got2.has, by rw [got2.events]; rfl⟩

end Create
end RaceDB
end Maple.Race
