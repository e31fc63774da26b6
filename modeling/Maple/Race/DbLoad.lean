import Maple.Race.DbContent

/-! A load of what was saved restores the content of the database, in whatever order
the hash tables were written and wherever the new process allocates. -/
namespace Maple.Race

/-- Instructions have different identifiers. -/
theorem StaticInfo.Has.unique {sinfo : StaticInfo} {inst other : InstId} (first : sinfo.Has inst)
    (second : sinfo.Has other) (same : sinfo.instId inst = sinfo.instId other) : inst = other := by
  rw [StaticInfo.Has, same] at first
  exact Option.some.inj (first.symm.trans second)

namespace RaceDB
variable {sinfo : StaticInfo} {db old : RaceDB} {mem : Memory}

theorem toProto_inj {e f : StaticRaceEvent} (first : sinfo.Has e.inst) (second : sinfo.Has f.inst)
    (same : e.toProto sinfo = f.toProto sinfo) : e.id = f.id ∧ e.key = f.key := by
  simp only [StaticRaceEvent.toProto, StaticRaceEventProto.mk.injEq] at same
  obtain ⟨ids, insts, types⟩ := same
  have inst : e.inst = f.inst := first.unique second insts
  exact ⟨ids, by rw [StaticRaceEvent.key, StaticRaceEvent.key, inst, types]⟩

theorem mem_save_event (inv : old.EventsInv sinfo) {q : StaticRaceEventProto} :
    q ∈ (old.save sinfo).staticEvent ↔ ∃ e, old.HasEvent e ∧ e.toProto sinfo = q := by
  simp only [save, List.mem_map, Prod.exists, Std.ExtTreeMap.mem_toList_iff_getElem?_eq_some]
  constructor
  · rintro ⟨i, e, stored, same⟩
    exact ⟨e, inv.of_id stored, same⟩
  · rintro ⟨e, has, same⟩
    exact ⟨e.id, e, has, same⟩

theorem mem_save_race (inv : old.RacesInv) {q : StaticRaceProto} :
    q ∈ (old.save sinfo).staticRace ↔ ∃ r : StaticRace, old.staticRaces.byId[r.id]? = some r ∧ r.toProto = q := by
  simp only [save, List.mem_map, Prod.exists, Std.ExtTreeMap.mem_toList_iff_getElem?_eq_some]
  constructor
  · rintro ⟨i, r, stored, same⟩
    exact ⟨r, by rwa [inv.sound.ids i r stored], same⟩
  · rintro ⟨r, has, same⟩
    exact ⟨r.id, r, has, same⟩

/-- What `Load` has after some of the static events. -/
structure LoadedEvents (sinfo : StaticInfo) (mem : Memory) (done : List StaticRaceEventProto) (db : RaceDB) :
    Prop where
  inv : db.EventsInv sinfo
  topped : db.staticEvents.Topped
  exact : ∀ q, (∃ e, db.HasEvent e ∧ e.toProto sinfo = q) ↔ q ∈ done
  rest : db.mem = mem ∧ db.staticRaces = {} ∧ db.raceVec = [] ∧ db.currExecId = 0 ∧ db.racyInstSet = ∅

/-- An identifier that is written twice would be listed twice. -/
theorem not_mem_of_nodup {A B : Type} {f : A → B} {done rest : List A} {p q : A}
    (distinct : ((done ++ p :: rest).map f).Nodup) (member : q ∈ done) : f q ≠ f p := by
  intro same
  rw [List.map_append, List.map_cons, List.nodup_append] at distinct
  exact distinct.2.2 _ (List.mem_map_of_mem member) _ List.mem_cons_self same

/-- The database with one more static event. -/
def withEvent (db : RaceDB) (e : StaticRaceEvent) : RaceDB :=
  { db with
    staticEvents := db.staticEvents.load e.id (StaticRaceEvent.hash db.mem e.key) e
    allocated := db.allocated + 1 }

theorem hasEvent_withEvent {e : StaticRaceEvent} (other : ∀ f, db.HasEvent f → f.id ≠ e.id) (f : StaticRaceEvent) :
    (db.withEvent e).HasEvent f ↔ f = e ∨ db.HasEvent f := by
  have entry : (db.withEvent e).staticEvents.byId[f.id]? =
      if e.id = f.id then some e else db.staticEvents.byId[f.id]? :=
    Interning.Table.getElem?_add db.staticEvents e.id f.id (StaticRaceEvent.hash db.mem e.key) e
  rw [HasEvent, entry]
  split
  · next same =>
      rw [Option.some.injEq]
      refine ⟨fun own => Or.inl own.symm, ?_⟩
      rintro (rfl | has)
      · rfl
      · exact absurd same.symm (other f has)
  · next apart =>
      refine ⟨Or.inr, ?_⟩
      rintro (rfl | has)
      · exact absurd rfl apart
      · exact has

theorem EventsInv.withEvent (inv : db.EventsInv sinfo) {e : StaticRaceEvent}
    (other : ∀ f, db.HasEvent f → f.id ≠ e.id ∧ f.key ≠ e.key) (ptr : e.ptr = db.allocated)
    (known : sinfo.Has e.inst) : (db.withEvent e).EventsInv sinfo := by
  have has_iff := hasEvent_withEvent fun f has => (other f has).1
  have fresh : e.id ∉ db.staticEvents.byId := by
    intro member
    have found := Std.ExtTreeMap.getElem?_eq_some_getElem member
    exact (other _ (inv.of_id found)).1 (inv.sound.ids _ _ found)
  refine ⟨?_, fun f g first second same => ?_, fun f has => ?_, fun f has => ?_⟩
  · exact (inv.sound.add fresh fun j f found => (other f (inv.of_id found)).2).setCurr _
  · rcases (has_iff f).mp first with rfl | before
    · rcases (has_iff g).mp second with rfl | before'
      · rfl
      · exact absurd (same.symm.trans ptr) (inv.allocated g before').ne
    · rcases (has_iff g).mp second with rfl | before'
      · exact absurd (same.trans ptr) (inv.allocated f before).ne
      · exact inv.ptrs f g before before' same
  · rcases (has_iff f).mp has with rfl | before
    · exact ptr ▸ Nat.lt_succ_self _
    · exact Nat.lt_succ_of_lt (inv.allocated f before)
  · rcases (has_iff f).mp has with rfl | before
    · exact known
    · exact inv.insts f before

theorem loadStaticEvent_spec {done rest : List StaticRaceEventProto} {p : StaticRaceEventProto}
    (inv : old.EventsInv sinfo) (saved : (done ++ p :: rest).Perm (old.save sinfo).staticEvent)
    (loaded : LoadedEvents sinfo mem done db) :
    ∃ next, loadStaticEvent sinfo db p = some next ∧ LoadedEvents sinfo mem (done ++ [p]) next := by
  have written : ∀ q ∈ done ++ p :: rest, ∃ e, old.HasEvent e ∧ e.toProto sinfo = q :=
    fun q member => (mem_save_event inv).mp (saved.subset member)
  have distinct : ((done ++ p :: rest).map (·.id)).Nodup := by
    apply (saved.map _).nodup_iff.mpr
    rw [save, List.map_map]
    exact inv.sound.nodup_ids
  obtain ⟨e₀, has₀, rfl⟩ := written p (by simp)
  have known := inv.insts e₀ has₀
  let e : StaticRaceEvent := ⟨db.allocated, e₀.id, e₀.inst, e₀.type⟩
  have other : ∀ f, db.HasEvent f → f.id ≠ e.id ∧ f.key ≠ e.key := by
    intro f has
    have member := (loaded.exact (f.toProto sinfo)).mp ⟨f, has, rfl⟩
    have apart := not_mem_of_nodup distinct member
    refine ⟨apart, fun same => ?_⟩
    obtain ⟨f₀, has', proto⟩ := written (f.toProto sinfo) (List.mem_append_left _ member)
    obtain ⟨ids, keys⟩ := toProto_inj (inv.insts f₀ has') (loaded.inv.insts f has) proto
    obtain rfl := inv.keys has' has₀ (keys.trans same)
    exact apart ids.symm
  have has_iff := hasEvent_withEvent fun f has => (other f has).1
  have result : loadStaticEvent sinfo db (e₀.toProto sinfo) = some (db.withEvent e) := by
    have found : sinfo.findInst (e₀.toProto sinfo).instId = some e₀.inst := known
    simp only [loadStaticEvent, found]
    rfl
  refine ⟨db.withEvent e, result, loaded.inv.withEvent other rfl known, loaded.topped.load .., fun q => ?_,
    loaded.rest⟩
  rw [List.mem_append, List.mem_singleton, ← loaded.exact]
  constructor
  · rintro ⟨f, has, rfl⟩
    rcases (has_iff f).mp has with rfl | before
    · exact Or.inr rfl
    · exact Or.inl ⟨f, before, rfl⟩
  · rintro (⟨f, before, rfl⟩ | rfl)
    · exact ⟨f, (has_iff f).mpr (Or.inr before), rfl⟩
    · exact ⟨e, (has_iff e).mpr (Or.inl rfl), rfl⟩

/-- The first loop of `Load`. -/
theorem loadStaticEvents_spec (inv : old.EventsInv sinfo) {ps : List StaticRaceEventProto}
    (saved : ps.Perm (old.save sinfo).staticEvent) (mem : Memory) :
    ∃ db, ps.foldlM (loadStaticEvent sinfo) { mem := mem } = some db ∧ LoadedEvents sinfo mem ps db := by
  apply Runs.foldlM_prefix (LoadedEvents sinfo mem) ps
  · rintro done db p rest rfl loaded
    exact loadStaticEvent_spec inv saved loaded
  · have none : ∀ e, ¬ ({ mem := mem } : RaceDB).HasEvent e := by simp [HasEvent]
    refine ⟨⟨.empty, fun e f has => absurd has (none e), fun e has => absurd has (none e),
      fun e has => absurd has (none e)⟩, .empty, fun q => ?_, rfl, rfl, rfl, rfl, rfl⟩
    constructor
    · rintro ⟨e, has, -⟩
      exact absurd has (none e)
    · intro member
      cases member

/-- Decoding a list, element by element. -/
theorem mapM_decode {A B : Type} {f : A → Option B} {g : B → A} {P : B → Prop} {l : List A}
    (each : ∀ a ∈ l, ∃ b, f a = some b ∧ g b = a ∧ P b) :
    ∃ bs, l.mapM f = some bs ∧ bs.map g = l ∧ ∀ b ∈ bs, P b := by
  induction l with
  | nil => exact ⟨[], rfl, rfl, fun _ member => nomatch member⟩
  | cons a l ih =>
    obtain ⟨⟨b, decoded, same, holds⟩, others⟩ := List.forall_mem_cons.mp each
    obtain ⟨bs, rest, sames, all⟩ := ih others
    exact ⟨b :: bs, by simp [decoded, rest], by simp [same, sames], List.forall_mem_cons.mpr ⟨holds, all⟩⟩

/-- The tables hold what was listed. -/
structure LoadedTables (sinfo : StaticInfo) (listed : List StaticRaceEventProto) (done : List StaticRaceProto)
    (db : RaceDB) : Prop where
  events : db.EventsInv sinfo
  eventsTopped : db.staticEvents.Topped
  eventsExact : ∀ q, (∃ e, db.HasEvent e ∧ e.toProto sinfo = q) ↔ q ∈ listed
  inv : db.RacesInv
  topped : db.staticRaces.Topped
  exact : ∀ q, (∃ r : StaticRace, db.staticRaces.byId[r.id]? = some r ∧ r.toProto = q) ↔ q ∈ done

/-- What `Load` has after all static events and some of the static races. -/
structure LoadedRaces (sinfo : StaticInfo) (mem : Memory) (listed : List StaticRaceEventProto)
    (done : List StaticRaceProto) (db : RaceDB) : Prop extends LoadedTables sinfo listed done db where
  rest : db.mem = mem ∧ db.raceVec = [] ∧ db.currExecId = 0 ∧ db.racyInstSet = ∅

/-- The database with one more static race. -/
def withRace (db : RaceDB) (r : StaticRace) : RaceDB :=
  { db with staticRaces := db.staticRaces.load r.id (StaticRace.hash db.mem r.key) r }

theorem getElem?_withRace (db : RaceDB) (r : StaticRace) (i : BitVec 32) :
    (db.withRace r).staticRaces.byId[i]? = if r.id = i then some r else db.staticRaces.byId[i]? :=
  Interning.Table.getElem?_add db.staticRaces r.id i (StaticRace.hash db.mem r.key) r

theorem RacesInv.withRace (events : db.EventsInv sinfo) (inv : db.RacesInv) {r : StaticRace}
    (stored : ∀ e ∈ r.eventVec, db.HasEvent e) (fresh : r.id ∉ db.staticRaces.byId)
    (new : ∀ (i : BitVec 32) s, db.staticRaces.byId[i]? = some s → s.eventVec ≠ r.eventVec) :
    (db.withRace r).RacesInv := by
  refine ⟨(inv.sound.add fresh fun j s found same => ?_).setCurr _, fun i s found e member => ?_⟩
  · exact new j s found (eq_of_map_eq (fun e f => events.ptrs e f) (inv.events j s found) stored same)
  · rw [getElem?_withRace] at found
    split at found
    · cases found
      exact stored e member
    · exact inv.events i s found e member

theorem loadStaticRace_spec {events : List StaticRaceEventProto} {done rest : List StaticRaceProto}
    {p : StaticRaceProto} (oldEvents : old.EventsInv sinfo) (inv : old.RacesInv)
    (savedEvents : events.Perm (old.save sinfo).staticEvent)
    (saved : (done ++ p :: rest).Perm (old.save sinfo).staticRace)
    (loaded : LoadedRaces sinfo mem events done db) :
    ∃ next, loadStaticRace db p = some next ∧ LoadedRaces sinfo mem events (done ++ [p]) next := by
  have written : ∀ q ∈ done ++ p :: rest, ∃ r : StaticRace, old.staticRaces.byId[r.id]? = some r ∧ r.toProto = q :=
    fun q member => (mem_save_race inv).mp (saved.subset member)
  have distinct : ((done ++ p :: rest).map (·.id)).Nodup := by
    apply (saved.map _).nodup_iff.mpr
    rw [save, List.map_map]
    exact inv.sound.nodup_ids
  obtain ⟨r₀, has₀, rfl⟩ := written p (by simp)
  obtain ⟨vec, decoded, ids, stored⟩ := mapM_decode (f := db.findStaticRaceEvent) (g := (·.id))
    (P := db.HasEvent) (l := r₀.toProto.eventId) (by
      intro i member
      obtain ⟨e, inside, rfl⟩ := List.mem_map.mp member
      have listed := savedEvents.symm.subset ((mem_save_event oldEvents).mpr ⟨e, inv.events _ r₀ has₀ e inside, rfl⟩)
      obtain ⟨f, has, same⟩ := (loaded.eventsExact _).mpr listed
      have own : f.id = e.id := congrArg StaticRaceEventProto.id same
      exact ⟨f, own ▸ has, own, has⟩)
  let r : StaticRace := ⟨r₀.id, vec⟩
  have other : ∀ (i : BitVec 32) s, db.staticRaces.byId[i]? = some s → i ≠ r.id ∧ s.eventVec ≠ vec := by
    intro i s found
    have own := loaded.inv.sound.ids i s found
    have member := (loaded.exact s.toProto).mp ⟨s, own ▸ found, rfl⟩
    have apart := not_mem_of_nodup distinct member
    refine ⟨fun same => apart (own.trans same), fun same => apart ?_⟩
    obtain ⟨s₀, has', proto⟩ := written s.toProto (List.mem_append_left _ member)
    simp only [StaticRace.toProto, StaticRaceProto.mk.injEq] at proto
    have equal : s₀.eventVec = r₀.eventVec :=
      eq_of_map_eq (fun e f => HasEvent.ids) (inv.events _ s₀ has') (inv.events _ r₀ has₀)
        (proto.2.trans (same ▸ ids))
    exact proto.1.symm.trans (inv.unique has' has₀ equal)
  have fresh : r.id ∉ db.staticRaces.byId := fun member =>
    (other r.id _ (Std.ExtTreeMap.getElem?_eq_some_getElem member)).1 rfl
  have result : loadStaticRace db r₀.toProto = some (db.withRace r) := by
    simp only [loadStaticRace, decoded]
    rfl
  refine ⟨db.withRace r, result, ⟨⟨loaded.events.sound, loaded.events.ptrs, loaded.events.allocated,
    loaded.events.insts⟩, loaded.eventsTopped, loaded.eventsExact,
    loaded.inv.withRace loaded.events stored fresh fun i s found => (other i s found).2,
    loaded.topped.load .., fun q => ?_⟩, loaded.rest⟩
  have same : r.toProto = r₀.toProto := by
    simp only [StaticRace.toProto, StaticRaceProto.mk.injEq]
    exact ⟨rfl, ids⟩
  rw [List.mem_append, List.mem_singleton, ← loaded.exact]
  constructor
  · rintro ⟨s, has, rfl⟩
    rw [getElem?_withRace] at has
    split at has
    · cases has
      exact Or.inr same
    · exact Or.inl ⟨s, has, rfl⟩
  · rintro (⟨s, has, rfl⟩ | rfl)
    · refine ⟨s, ?_, rfl⟩
      rw [getElem?_withRace, if_neg fun own => (other s.id s has).1 own.symm]
      exact has
    · exact ⟨r, by rw [getElem?_withRace, if_pos rfl], same⟩

/-- The second loop of `Load`. -/
theorem loadStaticRaces_spec (oldEvents : old.EventsInv sinfo) (inv : old.RacesInv)
    {events : List StaticRaceEventProto} {ps : List StaticRaceProto}
    (savedEvents : events.Perm (old.save sinfo).staticEvent) (saved : ps.Perm (old.save sinfo).staticRace)
    (loaded : LoadedEvents sinfo mem events db) :
    ∃ next, ps.foldlM loadStaticRace db = some next ∧ LoadedRaces sinfo mem events ps next := by
  apply Runs.foldlM_prefix (LoadedRaces sinfo mem events) ps
  · rintro done db p rest rfl loaded
    exact loadStaticRace_spec oldEvents inv savedEvents saved loaded
  · obtain ⟨mems, races, vec, exec, racy⟩ := loaded.rest
    have none : ∀ (i : BitVec 32) r, db.staticRaces.byId[i]? ≠ some r := by simp [races]
    refine ⟨⟨loaded.inv, loaded.topped, loaded.exact, ⟨?_, fun i r found => absurd found (none i r)⟩, ?_,
      fun q => ?_⟩, mems, vec, exec, racy⟩
    · rw [races]
      exact .empty
    · rw [races]
      exact .empty
    · exact ⟨fun ⟨r, has, _⟩ => absurd has (none _ r), fun member => nomatch member⟩

/-- What `Load` has after the tables and some of the races. -/
structure LoadedVec (sinfo : StaticInfo) (mem : Memory) (listed : List StaticRaceEventProto)
    (races : List StaticRaceProto) (done : List RaceProto) (db : RaceDB) : Prop extends
    LoadedTables sinfo listed races db where
  mems : db.mem = mem
  vec : db.content.races = done
  stored : ∀ r ∈ db.raceVec, (∀ e ∈ r.eventVec, db.HasEvent e.staticEvent) ∧
    db.staticRaces.byId[r.staticRace.id]? = some r.staticRace
  execs : ∀ r ∈ db.raceVec, r.execId ≤ db.currExecId
  last : db.currExecId = 0 ∨ ∃ q ∈ done, q.execId = db.currExecId
  racy : db.racyInstSet = ∅

theorem loadRace_spec {listed : List StaticRaceEventProto} {races : List StaticRaceProto}
    {done : List RaceProto} {p : RaceProto} (inv : old.Inv sinfo)
    (savedEvents : listed.Perm (old.save sinfo).staticEvent)
    (savedRaces : races.Perm (old.save sinfo).staticRace) (saved : p ∈ (old.save sinfo).race)
    (loaded : LoadedVec sinfo mem listed races done db) :
    ∃ next, loadRace db p = some next ∧ LoadedVec sinfo mem listed races (done ++ [p]) next := by
  obtain ⟨r₀, member₀, rfl⟩ := List.mem_map.mp saved
  obtain ⟨hasEvents, hasRace⟩ := inv.raceVec r₀ member₀
  obtain ⟨vec, decoded, protos, stored⟩ := mapM_decode (l := r₀.toProto.event)
    (f := fun e => (db.findStaticRaceEvent e.staticId).map (RaceEvent.mk e.thdId)) (g := RaceEvent.toProto)
    (P := fun e => db.HasEvent e.staticEvent) (by
      intro q member
      obtain ⟨e, inside, rfl⟩ := List.mem_map.mp member
      have written := savedEvents.symm.subset ((mem_save_event inv.events).mpr ⟨_, hasEvents e inside, rfl⟩)
      obtain ⟨f, has, same⟩ := (loaded.eventsExact _).mpr written
      have own : f.id = e.staticEvent.id := congrArg StaticRaceEventProto.id same
      have found : db.findStaticRaceEvent e.staticEvent.id = some f := own ▸ has
      exact ⟨⟨e.thdId, f⟩, Option.map_eq_some_iff.mpr ⟨f, found, rfl⟩,
        by rw [RaceEvent.toProto, RaceEvent.toProto, own], has⟩)
  obtain ⟨r, has, same⟩ := (loaded.exact _).mpr
    (savedRaces.symm.subset ((mem_save_race inv.races).mpr ⟨_, hasRace, rfl⟩))
  have own : r.id = r₀.staticRace.id := congrArg StaticRaceProto.id same
  have found : db.findStaticRace r₀.toProto.staticId = some r := by
    rw [own] at has
    exact has
  let race : Race := ⟨r₀.execId, r₀.addr, vec, r⟩
  have proto : race.toProto = r₀.toProto := by
    rw [Race.toProto, protos, own]
    rfl
  let next : RaceDB := { db with
    raceVec := db.raceVec ++ [race]
    currExecId := if db.currExecId < r₀.execId then r₀.execId else db.currExecId }
  have result : loadRace db r₀.toProto = some next := by
    simp only [loadRace, decoded, found]
    rfl
  have above : db.currExecId ≤ next.currExecId ∧ r₀.execId ≤ next.currExecId := by
    simp only [next]
    split <;> omega
  have listed : next.content.races = done ++ [r₀.toProto] := by
    rw [← loaded.vec, ← proto]
    exact List.map_append ..
  refine ⟨next, result, ⟨⟨loaded.events.sound, loaded.events.ptrs, loaded.events.allocated,
    loaded.events.insts⟩, loaded.eventsTopped, loaded.eventsExact, ⟨loaded.inv.sound, loaded.inv.events⟩,
    loaded.topped, loaded.exact⟩, loaded.mems, listed, fun s member => ?_, fun s member => ?_, ?_, loaded.racy⟩
  · rcases List.mem_append.mp member with member | member
    · exact loaded.stored s member
    · obtain rfl := List.mem_singleton.mp member
      exact ⟨stored, has⟩
  · rcases List.mem_append.mp member with member | member
    · exact (loaded.execs s member).trans above.1
    · obtain rfl := List.mem_singleton.mp member
      exact above.2
  · simp only [next]
    split
    · exact Or.inr ⟨r₀.toProto, by simp, rfl⟩
    · refine loaded.last.imp id ?_
      rintro ⟨q, member, exec⟩
      exact ⟨q, List.mem_append_left _ member, exec⟩

/-- The third loop of `Load`. -/
theorem loadRaces_spec {p : RaceDBProto} (inv : old.Inv sinfo) (reordered : p.Reordered (old.save sinfo))
    (loaded : LoadedRaces sinfo mem p.staticEvent p.staticRace db) :
    ∃ next, p.race.foldlM loadRace db = some next ∧
      LoadedVec sinfo mem p.staticEvent p.staticRace p.race next := by
  apply Runs.foldlM_prefix (LoadedVec sinfo mem p.staticEvent p.staticRace) p.race
  · intro done db q rest split loaded
    apply loadRace_spec inv reordered.staticEvent reordered.staticRace ?_ loaded
    rw [← reordered.race, split]
    simp
  · obtain ⟨mems, vec, exec, racy⟩ := loaded.rest
    refine ⟨loaded.toLoadedTables, mems, ?_, ?_, ?_, Or.inl exec, racy⟩
    · rw [content, vec]
      rfl
    · simp [vec]
    · simp [vec]

/-- Only the racy instructions are added. -/
def LoadedRacy (sinfo : StaticInfo) (base : RaceDB) (done : List (BitVec 32)) (db : RaceDB) : Prop :=
  ∃ racy, db = { base with racyInstSet := racy } ∧
    ∀ inst, inst ∈ racy ↔ sinfo.Has inst ∧ sinfo.instId inst ∈ done

theorem loadRacyInst_spec {base : RaceDB} {done : List (BitVec 32)} {id : BitVec 32} (inv : old.Inv sinfo)
    (saved : id ∈ (old.save sinfo).racyInstId) (loaded : LoadedRacy sinfo base done db) :
    ∃ next, loadRacyInst sinfo db id = some next ∧ LoadedRacy sinfo base (done ++ [id]) next := by
  obtain ⟨inst, member, rfl⟩ := List.mem_map.mp saved
  have has := inv.racy inst (Std.ExtTreeSet.mem_toList.mp member)
  have known : sinfo.findInst (sinfo.instId inst) = some inst := has
  obtain ⟨racy, rfl, exact⟩ := loaded
  refine ⟨_, by simp only [loadRacyInst, known]; rfl, racy.insert inst, rfl, fun other => ?_⟩
  simp only [Std.ExtTreeSet.mem_insert, Std.compare_eq_iff_eq, exact, List.mem_append, List.mem_singleton]
  constructor
  · rintro (rfl | ⟨has, before⟩)
    · exact ⟨has, Or.inr rfl⟩
    · exact ⟨has, Or.inl before⟩
  · rintro ⟨known, before | same⟩
    · exact Or.inr ⟨known, before⟩
    · exact Or.inl (has.unique known same.symm)

/-- The last loop of `Load`. -/
theorem loadRacyInsts_spec {p : RaceDBProto} (base : RaceDB) (inv : old.Inv sinfo)
    (reordered : p.Reordered (old.save sinfo)) (none : base.racyInstSet = ∅) :
    ∃ next, p.racyInstId.foldlM (loadRacyInst sinfo) base = some next ∧
      LoadedRacy sinfo base p.racyInstId next := by
  apply Runs.foldlM_prefix (LoadedRacy sinfo base) p.racyInstId
  · intro done db id rest split loaded
    apply loadRacyInst_spec inv (reordered.racyInstId.subset ?_) loaded
    rw [split]
    simp
  · exact ⟨∅, by rw [← none], fun inst => by simp⟩

/-- Databases that write the same events have the same events. -/
theorem content_event_mono (inv : db.EventsInv sinfo) (oldInv : old.EventsInv sinfo)
    (written : ∀ q, (∃ e, old.HasEvent e ∧ e.toProto sinfo = q) → ∃ e, db.HasEvent e ∧ e.toProto sinfo = q)
    {i : BitVec 32} {key : InstId × RaceEventType} (said : old.content.event i = some key) :
    db.content.event i = some key := by
  obtain ⟨e, has, rfl, rfl⟩ := oldInv.content_event.mp said
  obtain ⟨f, has', same⟩ := written _ ⟨e, has, rfl⟩
  obtain ⟨ids, keys⟩ := toProto_inj (inv.insts f has') (oldInv.insts e has) same
  exact inv.content_event.mpr ⟨f, has', ids, keys⟩

theorem content_race_iff (inv : db.RacesInv) {i : BitVec 32} {ids : List (BitVec 32)} :
    db.content.race i = some ids ↔
      ∃ r : StaticRace, db.staticRaces.byId[r.id]? = some r ∧ r.toProto = ⟨i, ids⟩ := by
  refine content_race.trans ⟨?_, ?_⟩
  · rintro ⟨r, found, rfl⟩
    obtain rfl := inv.sound.ids i r found
    exact ⟨r, found, rfl⟩
  · rintro ⟨r, found, same⟩
    cases same
    exact ⟨r, found, rfl⟩

theorem mem_events_iff (i : BitVec 32) : i ∈ db.staticEvents.byId ↔ (db.content.event i).isSome = true := by
  rw [content, Option.isSome_map, Std.ExtTreeMap.mem_iff_isSome_getElem?]

theorem mem_races_iff (i : BitVec 32) : i ∈ db.staticRaces.byId ↔ (db.content.race i).isSome = true := by
  rw [content, Option.isSome_map, Std.ExtTreeMap.mem_iff_isSome_getElem?]

theorem LoadedTables.content {p : RaceDBProto} (tables : LoadedTables sinfo p.staticEvent p.staticRace db)
    (inv : old.Inv sinfo) (reordered : p.Reordered (old.save sinfo)) :
    db.content.event = old.content.event ∧ db.content.race = old.content.race := by
  have sameEvents : ∀ q, (∃ e, db.HasEvent e ∧ e.toProto sinfo = q) ↔ ∃ e, old.HasEvent e ∧ e.toProto sinfo = q :=
    fun q => (tables.eventsExact q).trans (reordered.staticEvent.mem_iff.trans (mem_save_event inv.events))
  have sameRaces : ∀ q, (∃ r : StaticRace, db.staticRaces.byId[r.id]? = some r ∧ r.toProto = q) ↔
      ∃ r : StaticRace, old.staticRaces.byId[r.id]? = some r ∧ r.toProto = q :=
    fun q => (tables.exact q).trans (reordered.staticRace.mem_iff.trans (mem_save_race inv.races))
  constructor
  · funext i
    apply Option.ext
    intro key
    exact ⟨content_event_mono inv.events tables.events fun q => (sameEvents q).mp,
      content_event_mono tables.events inv.events fun q => (sameEvents q).mpr⟩
  · funext i
    apply Option.ext
    intro ids
    exact (content_race_iff tables.inv).trans ((sameRaces ⟨i, ids⟩).trans (content_race_iff inv.races).symm)

/-- Loading what was saved restores the content. New races get an identifier of
their own execution. -/
structure Loaded (sinfo : StaticInfo) (old db : RaceDB) : Prop where
  inv : db.Inv sinfo
  content : db.content = old.content
  newer : ∀ q ∈ db.content.races, q.execId < db.currExecId
  next : db.currExecId = 1 ∨ ∃ q ∈ old.content.races, db.currExecId = q.execId + 1

theorem load_spec {p : RaceDBProto} (inv : old.Inv sinfo) (reordered : p.Reordered (old.save sinfo))
    (mem : Memory) (execs : ∀ q ∈ old.content.races, q.execId + 1 < 2 ^ 31) :
    ∃ db, load sinfo mem p = some db ∧ Loaded sinfo old db := by
  obtain ⟨db1, ran1, loaded1⟩ := loadStaticEvents_spec inv.events reordered.staticEvent mem
  obtain ⟨db2, ran2, loaded2⟩ := loadStaticRaces_spec inv.events inv.races reordered.staticEvent
    reordered.staticRace loaded1
  obtain ⟨db3, ran3, loaded3⟩ := loadRaces_spec inv reordered loaded2
  have written : db3.content.races = old.content.races := loaded3.vec.trans reordered.race
  have last : db3.currExecId = 0 ∨ ∃ q ∈ old.content.races, q.execId = db3.currExecId := by
    rw [← written, loaded3.vec]
    exact loaded3.last
  have small : db3.currExecId + 1 < 2 ^ 31 := by
    rcases last with zero | ⟨q, member, same⟩
    · omega
    · rw [← same]
      exact execs q member
  let db4 : RaceDB := { db3 with currExecId := db3.currExecId + 1 }
  have ran4 : db3.nextExec = some db4 := if_pos small
  obtain ⟨db, ran5, racy, rfl, exact⟩ := loadRacyInsts_spec db4 inv reordered loaded3.racy
  have known : ∀ inst, inst ∈ racy ↔ inst ∈ old.racyInstSet := by
    intro inst
    rw [exact, reordered.racyInstId.mem_iff]
    constructor
    · rintro ⟨has, saved⟩
      obtain ⟨other, member, same⟩ := List.mem_map.mp saved
      have member := Std.ExtTreeSet.mem_toList.mp member
      exact (inv.racy other member).unique has same ▸ member
    · exact fun member => ⟨inv.racy inst member, List.mem_map_of_mem (Std.ExtTreeSet.mem_toList.mpr member)⟩
  obtain ⟨events, races⟩ := loaded3.toLoadedTables.content inv reordered
  have below : ∀ r ∈ db3.raceVec, r.execId < db4.currExecId := fun r member =>
    Nat.lt_succ_of_le (loaded3.execs r member)
  refine ⟨{ db4 with racyInstSet := racy }, by simp only [load, ran1, ran2, ran3, ran4, ran5,
    Option.bind_eq_bind, Option.bind_some], ⟨⟨loaded3.events.sound, loaded3.events.ptrs,
    loaded3.events.allocated, loaded3.events.insts⟩, ?_, ⟨loaded3.inv.sound, loaded3.inv.events⟩, ?_,
    loaded3.stored, fun r member => (below r member).le, fun inst member => ((exact inst).mp member).1⟩,
    ?_, ?_, ?_⟩
  · apply Interning.Table.Topped.dense loaded3.eventsTopped inv.eventsDense
    intro i
    rw [mem_events_iff, events, ← mem_events_iff]
  · apply Interning.Table.Topped.dense loaded3.topped inv.racesDense
    intro i
    rw [mem_races_iff, races, ← mem_races_iff]
  · have racySame : (fun inst => inst ∈ racy) = fun inst => inst ∈ old.racyInstSet :=
      funext fun inst => propext (known inst)
    rw [content, content, Content.mk.injEq]
    exact ⟨events, races, written, racySame⟩
  · intro q member
    obtain ⟨r, stored, rfl⟩ := List.mem_map.mp member
    exact below r stored
  · rcases last with zero | ⟨q, member, same⟩
    · exact Or.inl (by simp [db4, zero])
    · exact Or.inr ⟨q, member, by simp [db4, same]⟩

end RaceDB
end Maple.Race
