import Maple.Idiom.IRootStore

/-! Over any number of runs the iroot database is the catalogue of what the runs have seen. -/
namespace Maple.Idiom
open Static Sinst Interning

namespace IRootCatalogue
variable {c c' all : IRootCatalogue} {e : EventKey} {key : IRootKey} {id : BitVec 32}

theorem Grows.refl (c : IRootCatalogue) : Grows c c := ⟨.refl _, List.prefix_refl _, List.prefix_refl _⟩

theorem Grows.trans (first : Grows c c') (second : Grows c' all) : Grows c all :=
  ⟨first.base.trans second.base, first.events.trans second.events, first.iroots.trans second.iroots⟩

theorem apply_grows (c : IRootCatalogue) (e : IRootCall) : Grows c (c.apply e) := by
  cases e with
  | static e => exact ⟨Catalogue.apply_grows c.base e, List.prefix_refl _, List.prefix_refl _⟩
  | event image offset source type =>
    exact ⟨Catalogue.see_grows c.base _ source, Catalogue.prefix_enter _ _, List.prefix_refl _⟩
  | iroot idiom ids sized => exact ⟨.refl _, List.prefix_refl _, Catalogue.prefix_enter _ _⟩
  | findiRoot id => exact .refl c

theorem foldl_grows (c : IRootCatalogue) (tr : List IRootCall) : Grows c (tr.foldl apply c) := by
  induction tr generalizing c with
  | nil => exact .refl c
  | cons e tr ih => exact (apply_grows c e).trans (ih _)

theorem Grows.eventId (grows : Grows c c') (member : e ∈ c.events) : c'.eventId e = c.eventId e := by
  rw [IRootCatalogue.eventId, IRootCatalogue.eventId, Catalogue.idxOf_of_prefix grows.events member]

theorem Grows.irootId (grows : Grows c c') (member : key ∈ c.iroots) : c'.irootId key = c.irootId key := by
  rw [IRootCatalogue.irootId, IRootCatalogue.irootId, Catalogue.idxOf_of_prefix grows.iroots member]

theorem nth_of_prefix {A : Type} {l l' : List A} {a : A} (grows : l <+: l') (found : Table.nth l id = some a) :
    Table.nth l' id = some a := by
  obtain ⟨rest, rfl⟩ := grows
  exact Table.nth_append found

/-- Iroots keep what they are about. -/
theorem Grows.describe (ok : c.Ok) (grows : Grows c c') (member : key ∈ c.iroots) :
    c'.describe key = c.describe key := by
  refine congrArg (Prod.mk key.idiom) (List.map_congr_left fun id part => ?_)
  obtain ⟨e, found⟩ := ok.parts key member id part
  rw [found, nth_of_prefix grows.events found]

theorem nth_eventId (ok : c.Ok) (member : e ∈ c.events) : Table.nth c.events (c.eventId e) = some e := by
  have bound := List.idxOf_lt_length_of_mem member
  rw [eventId, Table.nth_ofNat (Nat.lt_of_le_of_lt bound ok.eventRoom), List.getElem?_idxOf member]

theorem nth_irootId (ok : c.Ok) (member : key ∈ c.iroots) : Table.nth c.iroots (c.irootId key) = some key := by
  have bound := List.idxOf_lt_length_of_mem member
  rw [irootId, Table.nth_ofNat (Nat.lt_of_le_of_lt bound ok.irootRoom), List.getElem?_idxOf member]

/-- What `FindiRootEvent` compares for an event. -/
def eventKey (c : IRootCatalogue) (e : EventKey) : Option InstId × IRootEventType :=
  (some (c.base.places.idxOf e.1), e.2)

/-- What `FindiRoot` compares for an iroot. -/
def irootKey (c : IRootCatalogue) (key : IRootKey) : IdiomType × List (Option IRootEvent) :=
  (key.idiom, key.eventId.map (Table.nth c.eventObjects))

theorem eventKey_inj (known : e.1 ∈ c.base.places) (e' : EventKey) : c.eventKey e = c.eventKey e' ↔ e = e' := by
  simp only [eventKey, Option.some.injEq, List.idxOf_inj known, Prod.ext_iff]

/-- The object of an event. -/
theorem nth_eventObjects (c : IRootCatalogue) (id : BitVec 32) :
    Table.nth c.eventObjects id = (Table.nth c.events id).map (c.eventObject (id.toNat - 1)) :=
  Table.nth_mapIdx _

/-- An object has the identifier under which it is found. -/
theorem id_nth_eventObjects (found : Table.nth c.events id = some e) :
    (Table.nth c.eventObjects id).map IRootEvent.id = some id := by
  obtain ⟨n, _, number⟩ := Table.nth_iff.mp found
  rw [nth_eventObjects, found, Option.map_some, Option.map_some, eventObject, number, Nat.add_sub_cancel, ← number,
    BitVec.ofNat_toNat, BitVec.setWidth_eq]

/-- A map that can be undone on the members of two lists tells the lists apart. -/
theorem eq_of_map_eq {A : Type} {f : BitVec 32 → Option A} {g : A → BitVec 32} {ids ids' : List (BitVec 32)}
    (undone : ∀ id ∈ ids, (f id).map g = some id) (undone' : ∀ id ∈ ids', (f id).map g = some id)
    (same : ids.map f = ids'.map f) : ids = ids' := by
  have back : ∀ l : List (BitVec 32), (∀ id ∈ l, (f id).map g = some id) →
      (l.map f).map (Option.map g) = l.map some := by
    intro l undone
    rw [List.map_map]
    exact List.map_congr_left undone
  have mapped := congrArg (List.map (Option.map g)) same
  rw [back ids undone, back ids' undone'] at mapped
  exact List.map_injective_iff.mpr (Option.some_injective _) mapped

theorem irootKey_inj {key' : IRootKey} (parts : ∀ id ∈ key.eventId, ∃ e, Table.nth c.events id = some e)
    (parts' : ∀ id ∈ key'.eventId, ∃ e, Table.nth c.events id = some e) (same : c.irootKey key = c.irootKey key') :
    key = key' := by
  have known : ∀ ids : List (BitVec 32), (∀ id ∈ ids, ∃ e, Table.nth c.events id = some e) →
      ∀ id ∈ ids, (Table.nth c.eventObjects id).map IRootEvent.id = some id := by
    intro ids parts id member
    obtain ⟨e, found⟩ := parts id member
    exact id_nth_eventObjects found
  obtain ⟨idioms, events⟩ := Prod.mk.inj same
  exact IRootKey.ext idioms (eq_of_map_eq (known _ parts) (known _ parts') events)

theorem eventId_of_nth (ok : c.Ok) (found : Table.nth c.events id = some e) : c.eventId e = id := by
  obtain ⟨n, here, number⟩ := Table.nth_iff.mp found
  obtain ⟨bound, rfl⟩ := List.getElem?_eq_some_iff.mp here
  rw [eventId, ok.events.idxOf_getElem, ← number, BitVec.ofNat_toNat, BitVec.setWidth_eq]

/-- Different iroots are about different events. -/
theorem describe_injOn (ok : c.Ok) : Set.InjOn c.describe {key | key ∈ c.iroots} := by
  intro key member key' member' same
  have known : ∀ key ∈ c.iroots, ∀ id ∈ key.eventId, (Table.nth c.events id).map c.eventId = some id := by
    intro key member id part
    obtain ⟨e, found⟩ := ok.parts key member id part
    rw [found, Option.map_some, eventId_of_nth ok found]
  obtain ⟨idioms, events⟩ := Prod.mk.inj same
  exact IRootKey.ext idioms (eq_of_map_eq (known key member) (known key' member') events)

/-- Different events have different identifiers. -/
theorem eventId_injOn (ok : c.Ok) : Set.InjOn c.eventId {e | e ∈ c.events} := by
  intro e member e' member' same
  have found := nth_eventId ok member
  rw [same, nth_eventId ok member'] at found
  exact (Option.some.inj found).symm

theorem irootId_injOn (ok : c.Ok) : Set.InjOn c.irootId {key | key ∈ c.iroots} := by
  intro key member key' member' same
  have found := nth_irootId ok member
  rw [same, nth_irootId ok member'] at found
  exact (Option.some.inj found).symm

theorem map_key_eventObjects (c : IRootCatalogue) : c.eventObjects.map IRootEvent.key = c.events.map c.eventKey := by
  apply List.ext_getElem?
  intro k
  rw [eventObjects, List.getElem?_map, List.getElem?_mapIdx, Option.map_map, List.getElem?_map]
  rfl

theorem map_key_irootObjects (c : IRootCatalogue) : c.irootObjects.map IRootObject.key = c.iroots.map c.irootKey := by
  apply List.ext_getElem?
  intro k
  rw [irootObjects, List.getElem?_map, List.getElem?_mapIdx, Option.map_map, List.getElem?_map]
  rfl

theorem nodup_eventKeys (ok : c.Ok) : (c.eventObjects.map IRootEvent.key).Nodup := by
  rw [map_key_eventObjects]
  exact ok.events.map_on fun e member e' _ same => (eventKey_inj (ok.places e member) e').mp same

theorem nodup_irootKeys (ok : c.Ok) : (c.irootObjects.map IRootObject.key).Nodup := by
  rw [map_key_irootObjects]
  exact ok.iroots.map_on fun key member key' member' same =>
    irootKey_inj (ok.parts key member) (ok.parts key' member') same

theorem mem_eventObjects (member : e ∈ c.events) : c.eventObject (c.events.idxOf e) e ∈ c.eventObjects := by
  refine List.mem_of_getElem? (i := c.events.idxOf e) ?_
  rw [eventObjects, List.getElem?_mapIdx, List.getElem?_idxOf member, Option.map_some]

theorem mem_irootObjects (member : key ∈ c.iroots) : c.irootObject (c.iroots.idxOf key) key ∈ c.irootObjects := by
  refine List.mem_of_getElem? (i := c.iroots.idxOf key) ?_
  rw [irootObjects, List.getElem?_mapIdx, List.getElem?_idxOf member, Option.map_some]

/-- No object is that of a new event. -/
theorem eventKey_fresh (ok : c.Ok) (fresh : e ∉ c.events) : ∀ event ∈ c.eventObjects, event.key ≠ c.eventKey e := by
  intro event member same
  have listed : event.key ∈ c.events.map c.eventKey := by
    rw [← map_key_eventObjects]
    exact List.mem_map_of_mem member
  obtain ⟨other, here, own⟩ := List.mem_map.mp listed
  rw [(eventKey_inj (ok.places other here) e).mp (own.trans same)] at here
  exact fresh here

/-- No object is that of a new iroot. -/
theorem irootKey_fresh (ok : c.Ok) (parts : ∀ id ∈ key.eventId, ∃ e, Table.nth c.events id = some e)
    (fresh : key ∉ c.iroots) : ∀ iroot ∈ c.irootObjects, iroot.key ≠ c.irootKey key := by
  intro iroot member same
  have listed : iroot.key ∈ c.iroots.map c.irootKey := by
    rw [← map_key_irootObjects]
    exact List.mem_map_of_mem member
  obtain ⟨other, here, own⟩ := List.mem_map.mp listed
  rw [irootKey_inj (ok.parts other here) parts (own.trans same)] at here
  exact fresh here

theorem nodup_concat {A : Type} {l : List A} {a : A} (distinct : l.Nodup) (fresh : a ∉ l) : (l ++ [a]).Nodup := by
  refine List.nodup_append.mpr ⟨distinct, List.nodup_singleton a, ?_⟩
  rintro b member last listed rfl
  exact fresh (List.mem_singleton.mp listed ▸ member)

theorem Ok.addEvent (ok : c.Ok) (known : e.1 ∈ c.base.places) (fresh : e ∉ c.events)
    (room : c.events.length + 1 < 2 ^ 32) : ({ c with events := c.events ++ [e] } : IRootCatalogue).Ok where
  eventRoom := by simpa using room
  irootRoom := ok.irootRoom
  places other member := by
    rcases List.mem_append.mp member with before | last
    · exact ok.places other before
    · rw [List.mem_singleton.mp last]
      exact known
  events := nodup_concat ok.events fresh
  parts key member id part := by
    obtain ⟨e, found⟩ := ok.parts key member id part
    exact ⟨e, Table.nth_append found⟩
  iroots := ok.iroots

theorem Ok.addIRoot (ok : c.Ok) (parts : ∀ id ∈ key.eventId, ∃ e, Table.nth c.events id = some e)
    (fresh : key ∉ c.iroots) (room : c.iroots.length + 1 < 2 ^ 32) :
    ({ c with iroots := c.iroots ++ [key] } : IRootCatalogue).Ok where
  eventRoom := ok.eventRoom
  irootRoom := by simpa using room
  places := ok.places
  events := ok.events
  parts other member := by
    rcases List.mem_append.mp member with before | last
    · exact ok.parts other before
    · rw [List.mem_singleton.mp last]
      exact parts
  iroots := nodup_concat ok.iroots fresh

/-- The last of the numbers. -/
theorem idxOf_concat {A : Type} [BEq A] [LawfulBEq A] {l : List A} {a : A} (fresh : a ∉ l) :
    (l ++ [a]).idxOf a = l.length := by
  rw [List.idxOf_append_of_notMem fresh, List.idxOf_cons_self, Nat.add_zero]

/-- Objects of the events stay when more instructions and events are seen. -/
theorem eventObject_grows (grows : c.base.Grows c'.base) (known : e.1 ∈ c.base.places) (k : ℕ) :
    c'.eventObject k e = c.eventObject k e := by
  rw [eventObject, eventObject, Catalogue.idxOf_of_prefix grows.places known]

theorem eventObjects_grows (ok : c.Ok) (grows : c.base.Grows c'.base) (same : c'.events = c.events) :
    c'.eventObjects = c.eventObjects := by
  rw [eventObjects, eventObjects, same]
  exact List.mapIdx_eq_mapIdx_iff.mpr fun k bound =>
    eventObject_grows grows (ok.places _ (List.getElem_mem bound)) k

theorem irootObjects_grows (ok : c.Ok) (grows : c.eventObjects <+: c'.eventObjects) (same : c'.iroots = c.iroots) :
    c'.irootObjects = c.irootObjects := by
  rw [irootObjects, irootObjects, same]
  refine List.mapIdx_eq_mapIdx_iff.mpr fun k bound => ?_
  have events : c.iroots[k].eventId.map (Table.nth c'.eventObjects) =
      c.iroots[k].eventId.map (Table.nth c.eventObjects) := by
    refine List.map_congr_left fun id part => ?_
    obtain ⟨e, found⟩ := ok.parts _ (List.getElem_mem bound) id part
    have object : Table.nth c.eventObjects id = some (c.eventObject (id.toNat - 1) e) := by
      rw [nth_eventObjects, found, Option.map_some]
    rw [object, nth_of_prefix grows object]
  simp only [irootObject, events]

theorem encode_grows (ok : c.Ok) (grows : c.base.Grows c'.base) (events : c'.events = c.events)
    (iroots : c'.iroots = c.iroots) : c'.encode = c.encode := by
  rw [encode, encode, events, iroots]
  refine congrArg (IRootDbProto.mk · _) (List.mapIdx_eq_mapIdx_iff.mpr fun k bound => ?_)
  rw [grows.instId (ok.places _ (List.getElem_mem bound))]

end IRootCatalogue

namespace IRootRefines
variable {ptrs : ℕ → DbPointers} {s : IRootRuns} {c : IRootCatalogue} {place : String × Address}

/-- An instruction is found by its identifier. -/
theorem findInst {d : Databases} {c : Catalogue} (refines : Refines d c) (known : place ∈ c.places) :
    d.sinfo.findInst (c.instId place) = some (c.places.idxOf place) := by
  have bound := List.idxOf_lt_length_of_mem known
  refine (refines.indexes.instMap _ _).mpr ⟨?_, Catalogue.instId_toNat refines.ok known⟩
  rw [refines.proto]
  simpa [Catalogue.encode, Catalogue.places] using bound

/-- Where the instruction of a place is. -/
theorem placeOf {d : Databases} {c : Catalogue} (refines : Refines d c) (known : place ∈ c.places) :
    IRootRuns.placeOf d.sinfo (c.places.idxOf place) = some place := by
  have here := List.getElem?_idxOf known
  rw [Catalogue.places, List.getElem?_map, Option.map_eq_some_iff] at here
  obtain ⟨entry, found, rfl⟩ := here
  have home := refines.ok.homes entry (List.mem_of_getElem? found)
  have image : d.sinfo.findImage (c.imageId entry.image) = some (c.images.idxOf entry.image) := by
    refine (refines.indexes.imageMap _ _).mpr ⟨?_, Catalogue.imageId_toNat refines.ok home⟩
    rw [refines.proto]
    simpa [Catalogue.encode] using List.idxOf_lt_length_of_mem home
  have name : (d.sinfo.proto.image[c.images.idxOf entry.image]?).map ImageProto.name = some entry.image := by
    rw [← List.getElem?_map, refines.names_eq]
    exact List.getElem?_idxOf home
  obtain ⟨message, there, named⟩ := Option.map_eq_some_iff.mp name
  have listed : d.sinfo.proto.inst[c.places.idxOf entry.place]? = some
      ⟨BitVec.ofNat 32 (c.places.idxOf entry.place + 1), c.imageId entry.image, entry.offset, entry.opcode,
        entry.debugInfo⟩ := by
    rw [refines.proto]
    exact Catalogue.encode_at c found
  simp only [IRootRuns.placeOf, listed, Option.bind_eq_bind, Option.bind_some, image, there, named]
  rfl

/-- More instructions are seen. -/
theorem withBase (refines : IRootRefines ptrs s c) {d : Databases} {base : Catalogue} (grows : c.base.Grows base)
    (held : Refines d base) : IRootRefines ptrs { s with base := d } { c with base } := by
  have ok := refines.ok
  let c' : IRootCatalogue := { c with base }
  have grows' : c.base.Grows c'.base := grows
  have same : c'.eventObjects = c.eventObjects := IRootCatalogue.eventObjects_grows ok grows' rfl
  have roots : c'.irootObjects = c.irootObjects :=
    IRootCatalogue.irootObjects_grows ok (same ▸ List.prefix_refl _) rfl
  refine ⟨held, ⟨ok.eventRoom, ok.irootRoom, fun e member => grows.places.subset (ok.places e member), ok.events,
    ok.parts, ok.iroots⟩, ?_, refines.eventSize, same.symm ▸ refines.events, ?_⟩
  · exact refines.proto.trans (IRootCatalogue.encode_grows ok grows' rfl rfl).symm
  · exact roots.symm ▸ refines.iroots

/-- What is loaded is what was saved. -/
theorem load (refines : IRootRefines ptrs s c) {d : Databases} (held : Refines d c.base) :
    IRootRefines ptrs { base := d, store := IRootStore.load (ptrs (s.run + 1)) d.sinfo.findInst s.store.save,
                        run := s.run + 1 } c := by
  have ok := refines.ok
  have loaded : IRootDb.loadEvents d.sinfo.findInst c.encode = c.eventObjects := by
    apply List.ext_getElem?
    intro k
    simp only [IRootDb.loadEvents, IRootCatalogue.encode, IRootCatalogue.eventObjects, List.getElem?_map,
      List.getElem?_zipIdx, List.getElem?_mapIdx, Option.map_map]
    refine Option.map_congr fun e found => ?_
    simp only [Function.comp_apply, Nat.zero_add, IRootCatalogue.eventObject,
      findInst held (ok.places e (List.mem_of_getElem? found))]
  have events := Table.numbered_loadAll IRootEvent.id IRootEvent.key (ptrs (s.run + 1)).hashiRootEvent c.eventObjects
    (by simpa [IRootCatalogue.eventObjects] using ok.eventRoom) (fun n v found => by
      simp only [IRootCatalogue.eventObjects, List.getElem?_mapIdx, Option.map_eq_some_iff] at found
      obtain ⟨e, _, rfl⟩ := found
      rfl) (IRootCatalogue.nodup_eventKeys ok)
  have parts : c.encode.iroot.map (IRootDb.loadiRoot (Table.loadAll IRootEvent.id
      (fun event => (ptrs (s.run + 1)).hashiRootEvent event.key) c.eventObjects)) = c.irootObjects := by
    apply List.ext_getElem?
    intro k
    simp only [IRootCatalogue.encode, IRootCatalogue.irootObjects, List.getElem?_map, List.getElem?_mapIdx,
      Option.map_map]
    refine Option.map_congr fun key _ => ?_
    simp only [Function.comp_apply, IRootDb.loadiRoot, IRootCatalogue.irootObject, events.entries]
  have iroots := Table.numbered_loadAll IRootObject.id IRootObject.key (ptrs (s.run + 1)).hashiRoot c.irootObjects
    (by simpa [IRootCatalogue.irootObjects] using ok.irootRoom) (fun n v found => by
      simp only [IRootCatalogue.irootObjects, List.getElem?_mapIdx, Option.map_eq_some_iff] at found
      obtain ⟨key, _, rfl⟩ := found
      rfl) (IRootCatalogue.nodup_irootKeys ok)
  refine ⟨held, ok, refines.proto, ?_, ?_, ?_⟩
  · simp [IRootStore.load, IRootDb.load, IRootStore.save, refines.proto, IRootCatalogue.encode]
  · simp only [IRootStore.load, IRootDb.load, IRootStore.save, refines.proto, loaded]
    exact events
  · simp only [IRootStore.load, IRootDb.load, IRootStore.save, refines.proto, loaded, parts]
    exact iroots

/-- The event of a known instruction. -/
theorem getiRootEvent (refines : IRootRefines ptrs s c) (known : place ∈ c.base.places) (type : IRootEventType)
    (room : (enter (place, type) c.events).length < 2 ^ 32) :
    let c' : IRootCatalogue := { c with events := enter (place, type) c.events }
    let got := s.store.getiRootEvent (ptrs s.run) (c.base.places.idxOf place) (c.base.instId place) type
    got.2.id = c'.eventId (place, type) ∧ IRootRefines ptrs { s with store := got.1 } c' := by
  intro c' got
  have ok := refines.ok
  by_cases seen : (place, type) ∈ c.events
  · have same : c' = c := by simp only [c', enter, if_pos seen]
    have found := refines.events.find_of_mem (fun event => decide (event.key = c.eventKey (place, type)))
      (fun _ => decide_eq_true_iff) (IRootCatalogue.mem_eventObjects seen) rfl
    rw [IRootCatalogue.eventKey] at found
    have unchanged : got = (s.store, c.eventObject (c.events.idxOf (place, type)) (place, type)) := by
      simp only [got, IRootStore.getiRootEvent, IRootDb.findiRootEvent, found]
    rw [unchanged, same]
    exact ⟨rfl, refines⟩
  · have added : c' = { c with events := c.events ++ [(place, type)] } := by simp only [c', enter, if_neg seen]
    rw [enter, if_neg seen, List.length_append, List.length_singleton] at room
    have size : c.eventObjects.length = c.events.length := List.length_mapIdx
    have fresh := IRootCatalogue.eventKey_fresh ok seen
    have missing := refines.events.find_none (fun event => decide (event.key = c.eventKey (place, type)))
      (fun _ => decide_eq_true_iff) fresh
    rw [IRootCatalogue.eventKey] at missing
    have created := refines.events.create (size ▸ room)
      (fun id => { place := c.events.length, id, inst := some (c.base.places.idxOf place), type })
      (fun _ => rfl) (fun _ => rfl) fresh
    have number := refines.events.next
    rw [size] at number created
    have objects : c'.eventObjects = c.eventObjects ++ [c.eventObject c.events.length (place, type)] := by
      simp only [added, IRootCatalogue.eventObjects, List.mapIdx_concat]
      rfl
    have made : got = ({ db := { eventSize := c.events.length + 1
                                 events := (s.store.db.events.create
                                   ((ptrs s.run).hashiRootEvent (c.eventKey (place, type)))
                                   fun id => { place := c.events.length, id,
                                               inst := some (c.base.places.idxOf place), type }).1
                                 iroots := s.store.db.iroots }
                         proto := { s.store.proto with
                           event := s.store.proto.event ++
                             [⟨BitVec.ofNat 32 (c.events.length + 1), c.base.instId place, type⟩] } },
        c.eventObject c.events.length (place, type)) := by
      simp only [got, IRootStore.getiRootEvent, IRootDb.findiRootEvent, missing, IRootDb.createiRootEvent, Table.create,
        number, refines.eventSize]
      rfl
    have roots : c'.irootObjects = c.irootObjects :=
      IRootCatalogue.irootObjects_grows ok (objects ▸ List.prefix_append _ _) rfl
    rw [made]
    refine ⟨?_, refines.base, added ▸ ok.addEvent known seen room, ?_, ?_, objects ▸ created,
      roots.symm ▸ refines.iroots⟩
    · rw [added, IRootCatalogue.eventId, IRootCatalogue.idxOf_concat seen]
      rfl
    · simp only [refines.proto, IRootCatalogue.encode, added, List.mapIdx_concat]
    · simp [added]

/-- The objects of known events. -/
theorem byId_events (refines : IRootRefines ptrs s c) (id : BitVec 32) :
    s.store.db.events.byId[id]? = (Table.nth c.events id).map (c.eventObject (id.toNat - 1)) :=
  (refines.events.entries id).trans (IRootCatalogue.nth_eventObjects c id)

/-- The iroot of known events. -/
theorem getiRoot (refines : IRootRefines ptrs s c) (key : IRootKey)
    (known : ∀ id ∈ key.eventId, ∃ e, Table.nth c.events id = some e)
    (room : (enter key c.iroots).length < 2 ^ 32) :
    let c' : IRootCatalogue := { c with iroots := enter key c.iroots }
    let got := s.store.getiRoot (ptrs s.run) key.idiom key.eventId key.sized
    got.2.id = c'.irootId key ∧ IRootRefines ptrs { s with store := got.1 } c' := by
  intro c' got
  have ok := refines.ok
  have events : (key.eventId.map fun id => s.store.db.events.byId[id]?) = key.eventId.map (Table.nth c.eventObjects) :=
    List.map_congr_left fun id _ => refines.events.entries id
  by_cases seen : key ∈ c.iroots
  · have same : c' = c := by simp only [c', enter, if_pos seen]
    have found := refines.iroots.find_of_mem (fun iroot => decide (iroot.key = c.irootKey key))
      (fun _ => decide_eq_true_iff) (IRootCatalogue.mem_irootObjects seen) rfl
    rw [IRootCatalogue.irootKey] at found
    have unchanged : got = (s.store, c.irootObject (c.iroots.idxOf key) key) := by
      simp only [got, IRootStore.getiRoot, IRootDb.findiRoot, events, found]
    rw [unchanged, same]
    exact ⟨rfl, refines⟩
  · have added : c' = { c with iroots := c.iroots ++ [key] } := by simp only [c', enter, if_neg seen]
    rw [enter, if_neg seen, List.length_append, List.length_singleton] at room
    have size : c.irootObjects.length = c.iroots.length := List.length_mapIdx
    have fresh := IRootCatalogue.irootKey_fresh ok known seen
    have missing := refines.iroots.find_none (fun iroot => decide (iroot.key = c.irootKey key))
      (fun _ => decide_eq_true_iff) fresh
    rw [IRootCatalogue.irootKey] at missing
    have many : (key.eventId.map (Table.nth c.eventObjects)).length = key.idiom.numEvents := by
      rw [List.length_map, key.sized]
    have created := refines.iroots.create (size ▸ room)
      (fun id => { id, idiom := key.idiom, events := key.eventId.map (Table.nth c.eventObjects), sized := many })
      (fun _ => rfl) (fun _ => rfl) fresh
    have number := refines.iroots.next
    rw [size] at number created
    have objects : c'.irootObjects = c.irootObjects ++ [c.irootObject c.iroots.length key] := by
      simp only [added, IRootCatalogue.irootObjects, List.mapIdx_concat]
      rfl
    have made : got = ({ db := { s.store.db with
                           iroots := (s.store.db.iroots.create ((ptrs s.run).hashiRoot (c.irootKey key)) fun id =>
                             { id, idiom := key.idiom, events := key.eventId.map (Table.nth c.eventObjects),
                               sized := many }).1 }
                         proto := { s.store.proto with
                           iroot := s.store.proto.iroot ++
                             [⟨BitVec.ofNat 32 (c.iroots.length + 1), key.idiom, key.eventId, key.sized⟩] } },
        c.irootObject c.iroots.length key) := by
      simp only [got, IRootStore.getiRoot, IRootDb.findiRoot, events, missing, IRootDb.createiRoot, Table.create,
        number]
      rfl
    rw [made]
    refine ⟨?_, refines.base, added ▸ ok.addIRoot known seen room, ?_, refines.eventSize, refines.events,
      objects ▸ created⟩
    · rw [added, IRootCatalogue.irootId, IRootCatalogue.idxOf_concat seen]
      rfl
    · simp only [refines.proto, IRootCatalogue.encode, added, List.mapIdx_concat]

/-- What an identifier stands for in the current run. -/
theorem findiRoot (refines : IRootRefines ptrs s c) (id : BitVec 32) :
    (s.store.db.iroots.byId[id]?).map (IRootRuns.describe s.base.sinfo) = (Table.nth c.iroots id).map c.describe := by
  rw [refines.iroots.entries, IRootCatalogue.irootObjects, Table.nth_mapIdx, Option.map_map]
  refine Option.map_congr fun key found => ?_
  have member := Table.mem_of_nth found
  refine congrArg (Prod.mk key.idiom) ((List.map_map ..).trans (List.map_congr_left fun part inside => ?_))
  obtain ⟨e, here⟩ := refines.ok.parts key member part inside
  have place := placeOf refines.base (refines.ok.places e (Table.mem_of_nth here))
  simp only [Function.comp_apply, IRootCatalogue.nth_eventObjects, here, Option.map_some, Option.bind_some,
    IRootRuns.describeEvent, IRootCatalogue.eventObject, place, Option.bind_eq_bind]
  rfl

theorem step (refines : IRootRefines ptrs s c) {e : IRootCall} (allowed : s.Allows e)
    (imageRoom : (c.apply e).base.images.length < 2 ^ 32) (instRoom : (c.apply e).base.insts.length < 2 ^ 32)
    (eventRoom : (c.apply e).events.length < 2 ^ 32) (irootRoom : (c.apply e).iroots.length < 2 ^ 32) :
    ∃ next, s.step ptrs e = some (next, (c.apply e).answer c e) ∧ IRootRefines ptrs next (c.apply e) := by
  cases e with
  | static e =>
    obtain ⟨d, stepped, held⟩ := refines.base.step allowed imageRoom instRoom
    simp only [IRootRuns.step, stepped, Option.bind_eq_bind, Option.bind_some]
    split
    · next restart =>
      subst restart
      exact ⟨_, rfl, refines.load held⟩
    · exact ⟨_, rfl, refines.withBase (Catalogue.apply_grows c.base e) held⟩
  | event image offset source type =>
    have known : image.getD pseudoImageName ∈ c.base.images := by
      by_contra absent
      have missing := (StaticInfo.findImageByName_none refines.base.wellFormed refines.base.indexes).mpr
        (by rwa [refines.base.names_eq])
      rw [IRootRuns.Allows, Databases.Allows, missing] at allowed
      contradiction
    have seenRoom : (c.base.see (image.getD pseudoImageName, offset) source).insts.length < 2 ^ 32 := instRoom
    obtain ⟨sinfo, got, seen⟩ := refines.base.getInst known seenRoom
    have member := Catalogue.mem_see c.base (image.getD pseudoImageName, offset) source
    have wider := refines.withBase (Catalogue.see_grows c.base (image.getD pseudoImageName, offset) source) seen
    obtain ⟨id, next⟩ := wider.getiRootEvent member type eventRoom
    simp only [IRootRuns.step, got, Option.bind_eq_bind, Option.bind_some, seen.inst_id member]
    exact ⟨_, congrArg some (Prod.ext rfl (congrArg IRootAnswer.event id)), next⟩
  | iroot idiom ids sized =>
    have parts : ∀ id ∈ ids, ∃ e, Table.nth c.events id = some e := by
      intro id member
      have present := List.all_eq_true.mp allowed id member
      rw [refines.byId_events, Option.isSome_map] at present
      exact Option.isSome_iff_exists.mp present
    obtain ⟨id, next⟩ := refines.getiRoot ⟨idiom, ids, sized⟩ parts irootRoom
    exact ⟨_, congrArg some (Prod.ext rfl (congrArg IRootAnswer.iroot id)), next⟩
  | findiRoot id => exact ⟨_, congrArg some (Prod.ext rfl (congrArg IRootAnswer.found (refines.findiRoot id))), refines⟩

end IRootRefines

/-- Answers mention the same identifiers later. -/
theorem irootAnswer_grows {c all : IRootCatalogue} (e : IRootCall) (ok : (c.apply e).Ok)
    (grows : (c.apply e).Grows all) :
    (c.apply e).answer c e = all.answer c e := by
  cases e with
  | static e => exact congrArg IRootAnswer.static (Sinst.answer_grows e grows.base)
  | event image offset source type =>
    have member : ((image.getD pseudoImageName, offset), type) ∈ (c.apply (.event image offset source type)).events :=
      Catalogue.mem_enter.mpr (.inl rfl)
    exact congrArg IRootAnswer.event (grows.eventId member).symm
  | iroot idiom ids sized =>
    have member : ⟨idiom, ids, sized⟩ ∈ (c.apply (.iroot idiom ids sized)).iroots := Catalogue.mem_enter.mpr (.inl rfl)
    exact congrArg IRootAnswer.iroot (grows.irootId member).symm
  | findiRoot id =>
    refine congrArg IRootAnswer.found (Option.map_congr fun key found => ?_)
    exact (grows.describe ok (Table.mem_of_nth found)).symm

theorem irootRefines_first (ptrs : ℕ → DbPointers) : IRootRefines ptrs {} {} :=
  ⟨refines_first, ⟨by decide, by decide, by simp, by simp, by simp, by simp⟩, rfl, rfl, .empty, .empty⟩

/-- The catalogue of a trace. -/
def irootCatalogue (tr : List IRootCall) : IRootCatalogue := tr.foldl IRootCatalogue.apply {}

theorem run_irootRefines {ptrs : ℕ → DbPointers} {tr : List IRootCall} {s : IRootRuns} {c : IRootCatalogue}
    (refines : IRootRefines ptrs s c) (allowed : Runs.Along (IRootRuns.step ptrs) IRootRuns.Allows s tr)
    (imageRoom : (tr.foldl IRootCatalogue.apply c).base.images.length < 2 ^ 32)
    (instRoom : (tr.foldl IRootCatalogue.apply c).base.insts.length < 2 ^ 32)
    (eventRoom : (tr.foldl IRootCatalogue.apply c).events.length < 2 ^ 32)
    (irootRoom : (tr.foldl IRootCatalogue.apply c).iroots.length < 2 ^ 32) :
    ∃ last, Runs.run (IRootRuns.step ptrs) s tr =
        some (last, IRootCatalogue.answers (tr.foldl IRootCatalogue.apply c) c tr) ∧
      IRootRefines ptrs last (tr.foldl IRootCatalogue.apply c) := by
  induction tr generalizing s c with
  | nil => exact ⟨s, rfl, refines⟩
  | cons e tr ih =>
    obtain ⟨here, along⟩ := allowed
    have grows := IRootCatalogue.foldl_grows (c.apply e) tr
    obtain ⟨next, stepped, refines'⟩ := refines.step here
      (Nat.lt_of_le_of_lt grows.base.length_images imageRoom) (Nat.lt_of_le_of_lt grows.base.length_insts instRoom)
      (Nat.lt_of_le_of_lt grows.events.length_le eventRoom) (Nat.lt_of_le_of_lt grows.iroots.length_le irootRoom)
    simp only [stepped] at along
    obtain ⟨last, ran, final⟩ := ih refines' along imageRoom instRoom eventRoom irootRoom
    refine ⟨last, ?_, final⟩
    rw [irootAnswer_grows e refines'.ok grows] at stepped
    exact Runs.run_cons stepped ran

/-- Over any number of runs, wherever each run has its objects in memory, the saved file is the catalogue of what
the runs have seen: an identifier stands for one iroot, and an iroot for one sequence of instructions with what is
done there, in every run. -/
theorem iroots_exact (ptrs : ℕ → DbPointers) {tr : List IRootCall}
    (allowed : Runs.Along (IRootRuns.step ptrs) IRootRuns.Allows {} tr)
    (imageRoom : (irootCatalogue tr).base.images.length < 2 ^ 32)
    (instRoom : (irootCatalogue tr).base.insts.length < 2 ^ 32)
    (eventRoom : (irootCatalogue tr).events.length < 2 ^ 32) (irootRoom : (irootCatalogue tr).iroots.length < 2 ^ 32) :
    ∃ last, Runs.run (IRootRuns.step ptrs) {} tr =
        some (last, IRootCatalogue.answers (irootCatalogue tr) {} tr) ∧
      last.store.save = (irootCatalogue tr).encode ∧
      Set.InjOn (irootCatalogue tr).eventId {e | e ∈ (irootCatalogue tr).events} ∧
      Set.InjOn (irootCatalogue tr).irootId {key | key ∈ (irootCatalogue tr).iroots} ∧
      Set.InjOn (irootCatalogue tr).describe {key | key ∈ (irootCatalogue tr).iroots} := by
  obtain ⟨last, ran, refines⟩ :=
    run_irootRefines (irootRefines_first ptrs) allowed imageRoom instRoom eventRoom irootRoom
  exact ⟨last, ran, refines.proto, IRootCatalogue.eventId_injOn refines.ok, IRootCatalogue.irootId_injOn refines.ok,
    IRootCatalogue.describe_injOn refines.ok⟩

/-- Objects that move from run to run. -/
def movingPointers (run : ℕ) : DbPointers where
  inst := fun inst => BitVec.ofNat 64 (16 * inst + 4096 * run)
  event := fun place => BitVec.ofNat 64 (32 * place + 65536 * run)

/-- Two runs that see the same write and read, the second one in the other order. -/
def irootTrace : List IRootCall :=
  [.static (.imageLoad "/bin/prog"), .event (some "/bin/prog") 0x10 ⟨"prog.c", 3, 1⟩ .memWrite,
    .event (some "/bin/prog") 0x20 ⟨"prog.c", 5, 1⟩ .memRead, .iroot .idiom1 [1, 2] rfl, .static .restart,
    .event (some "/bin/prog") 0x20 ⟨"prog.c", 5, 1⟩ .memRead, .event (some "/bin/prog") 0x10 ⟨"", 0, 0⟩ .memWrite,
    .iroot .idiom1 [2, 1] rfl, .iroot .idiom1 [1, 2] rfl, .findiRoot 1]

theorem iroots_exact_restart :
    ∃ last, Runs.run (IRootRuns.step movingPointers) {} irootTrace =
        some (last, IRootCatalogue.answers (irootCatalogue irootTrace) {} irootTrace) ∧
      last.store.save = (irootCatalogue irootTrace).encode ∧
      Set.InjOn (irootCatalogue irootTrace).eventId {e | e ∈ (irootCatalogue irootTrace).events} ∧
      Set.InjOn (irootCatalogue irootTrace).irootId {key | key ∈ (irootCatalogue irootTrace).iroots} ∧
      Set.InjOn (irootCatalogue irootTrace).describe {key | key ∈ (irootCatalogue irootTrace).iroots} :=
  iroots_exact movingPointers (by decide +kernel) (by decide) (by decide) (by decide) (by decide)

end Maple.Idiom
