import Maple.Sinst.Databases

/-! Over any number of runs the databases are the catalogue, and an instruction keeps its
identifier. -/
namespace Maple.Sinst
open Static

namespace Catalogue
variable {c c' all : Catalogue} {place : String × Address} {e : Event}

theorem Grows.refl (c : Catalogue) : Grows c c := ⟨List.prefix_refl _, List.prefix_refl _⟩

theorem Grows.trans (first : Grows c c') (second : Grows c' all) : Grows c all :=
  ⟨first.images.trans second.images, first.places.trans second.places⟩

theorem idxOf_of_prefix {A : Type} [BEq A] [LawfulBEq A] {l l' : List A} {a : A} (grows : l <+: l') (member : a ∈ l) :
    l'.idxOf a = l.idxOf a := by
  obtain ⟨rest, rfl⟩ := grows
  exact List.idxOf_append_of_mem member

/-- Places keep their identifiers. -/
theorem Grows.instId (grows : Grows c c') (member : place ∈ c.places) : c'.instId place = c.instId place := by
  rw [Catalogue.instId, Catalogue.instId, idxOf_of_prefix grows.places member]

theorem imageId_toNat (ok : c.Ok) {image : String} (member : image ∈ c.images) :
    (c.imageId image).toNat = c.images.idxOf image + 1 :=
  Nat.mod_eq_of_lt (Nat.lt_of_le_of_lt (List.idxOf_lt_length_of_mem member) ok.imageRoom)

theorem instId_toNat (ok : c.Ok) (member : place ∈ c.places) : (c.instId place).toNat = c.places.idxOf place + 1 := by
  have bound := List.idxOf_lt_length_of_mem member
  rw [places, List.length_map] at bound
  exact Nat.mod_eq_of_lt (Nat.lt_of_le_of_lt bound ok.instRoom)

theorem instId_injOn (ok : c.Ok) : Set.InjOn c.instId {place | place ∈ c.places} := by
  intro place member place' member' same
  have numbers := congrArg BitVec.toNat same
  rw [instId_toNat ok member, instId_toNat ok member', Nat.succ_inj] at numbers
  exact (List.idxOf_inj member).mp numbers

theorem map_image_encode (c : Catalogue) : c.encode.image.map ImageProto.name = c.images := by
  apply List.ext_getElem?
  intro k
  simp [encode, Function.comp_def]

theorem encode_wellFormed (ok : c.Ok) : c.encode.WellFormed where
  imageRoom := by simpa [encode] using ok.imageRoom
  instRoom := by simpa [encode] using ok.instRoom
  imageIds k image found := by
    simp only [encode, List.getElem?_mapIdx, Option.map_eq_some_iff] at found
    obtain ⟨name, _, rfl⟩ := found
    rfl
  instIds k inst found := by
    simp only [encode, List.getElem?_mapIdx, Option.map_eq_some_iff] at found
    obtain ⟨entry, _, rfl⟩ := found
    rfl
  homes inst member := by
    obtain ⟨k, found⟩ := List.mem_iff_getElem?.mp member
    simp only [encode, List.getElem?_mapIdx, Option.map_eq_some_iff] at found
    obtain ⟨entry, here, rfl⟩ := found
    have home := ok.homes entry (List.mem_of_getElem? here)
    rw [imageId_toNat ok home]
    exact ⟨Nat.succ_pos _, by simpa [encode] using List.idxOf_lt_length_of_mem home⟩
  names := by
    rw [map_image_encode]
    exact ok.images
  places := by
    have pairs : (c.encode.inst.map fun inst => (inst.imageId, inst.offset)) =
        c.places.map fun place => (c.imageId place.1, place.2) := by
      apply List.ext_getElem?
      intro k
      simp [encode, Catalogue.places, Entry.place, Function.comp_def]
    rw [pairs]
    refine ok.places.map_on ?_
    rintro ⟨image, offset⟩ member ⟨image', offset'⟩ member' same
    obtain ⟨images, rfl⟩ := Prod.mk.inj same
    have home : ∀ {image offset}, (image, offset) ∈ c.places → image ∈ c.images := by
      intro image offset member
      obtain ⟨entry, listed, same⟩ := List.mem_map.mp member
      cases same
      exact ok.homes entry listed
    have numbers := congrArg BitVec.toNat images
    rw [imageId_toNat ok (home member), imageId_toNat ok (home member'), Nat.succ_inj] at numbers
    rw [(List.idxOf_inj (home member)).mp numbers]

/-- The message of a place. -/
theorem encode_at (c : Catalogue) {k : ℕ} {entry : Entry} (here : c.insts[k]? = some entry) :
    c.encode.inst[k]? = some ⟨BitVec.ofNat 32 (k + 1), c.imageId entry.image, entry.offset, entry.opcode,
      entry.debugInfo⟩ := by
  simp [encode, here]

theorem places_note (c : Catalogue) (place : String × Address) (code : BitVec 32) :
    (c.note place code).places = c.places := by
  simp only [places, note, List.map_map]
  apply List.map_congr_left
  intro entry _
  simp only [Function.comp_apply]
  split <;> rfl

theorem mem_see (c : Catalogue) (place : String × Address) (source : DebugInfoProto) :
    place ∈ (c.see place source).places := by
  unfold see
  split
  · assumption
  · simp [places, Entry.place]

theorem see_grows (c : Catalogue) (place : String × Address) (source : DebugInfoProto) :
    Grows c (c.see place source) := by
  unfold see
  split
  · exact .refl c
  · exact ⟨List.prefix_refl _, by simp [places]⟩

theorem prefix_enter {A : Type} [DecidableEq A] (a : A) (l : List A) : l <+: enter a l := by
  unfold enter
  split
  · exact List.prefix_refl l
  · exact List.prefix_append l [a]

theorem mem_enter {A : Type} [DecidableEq A] {a b : A} {l : List A} : b ∈ enter a l ↔ b = a ∨ b ∈ l := by
  unfold enter
  split
  · next known =>
    simp only [iff_or_self]
    rintro rfl
    exact known
  · simp [or_comm]

theorem apply_grows (c : Catalogue) (e : Event) : Grows c (c.apply e) := by
  cases e with
  | imageLoad name => exact ⟨prefix_enter name c.images, List.prefix_refl _⟩
  | use image offset source use =>
    have seen := see_grows c (image.getD pseudoImageName, offset) source
    cases use with
    | lookup => exact seen
    | shared => exact seen
    | setShared => exact ⟨seen.images, seen.places⟩
    | opcode code => exact ⟨seen.images, by
        rw [apply, places_note]
        exact seen.places⟩
  | restart => exact .refl c

theorem foldl_grows (c : Catalogue) (tr : List Event) : Grows c (tr.foldl apply c) := by
  induction tr generalizing c with
  | nil => exact .refl c
  | cons e tr ih => exact (apply_grows c e).trans (ih _)

theorem Grows.length_images (grows : Grows c c') : c.images.length ≤ c'.images.length := grows.images.length_le

theorem Grows.length_insts (grows : Grows c c') : c.insts.length ≤ c'.insts.length := by
  simpa [Catalogue.places] using grows.places.length_le

theorem Ok.see (ok : c.Ok) {source : DebugInfoProto} (home : place.1 ∈ c.images)
    (room : (c.see place source).insts.length < 2 ^ 32) : (c.see place source).Ok := by
  unfold Catalogue.see at room ⊢
  split
  · exact ok
  · next fresh =>
    rw [if_neg fresh] at room
    refine ⟨ok.imageRoom, room, ok.pseudo, ok.images, fun entry member => ?_, ?_, fun other member => ?_⟩
    · rcases List.mem_append.mp member with before | last
      · exact ok.homes entry before
      · rw [List.mem_singleton.mp last]
        exact home
    · rw [Catalogue.places, List.map_append, List.nodup_append]
      refine ⟨ok.places, by simp, fun a member b last => ?_⟩
      rw [List.map_singleton, List.mem_singleton] at last
      rintro rfl
      exact fresh ((show a = place from last) ▸ member)
    · rw [Catalogue.places, List.map_append]
      exact List.mem_append_left _ (ok.shared other member)

theorem Ok.note (ok : c.Ok) (code : BitVec 32) : (c.note place code).Ok where
  imageRoom := ok.imageRoom
  instRoom := by simpa [Catalogue.note] using ok.instRoom
  pseudo := ok.pseudo
  images := ok.images
  homes entry member := by
    obtain ⟨before, listed, rfl⟩ := List.mem_map.mp member
    have home := ok.homes before listed
    split <;> exact home
  places := by
    rw [places_note]
    exact ok.places
  shared other member := by
    rw [places_note]
    exact ok.shared other member

end Catalogue

/-- The databases hold the catalogue. -/
structure Refines (d : Databases) (c : Catalogue) : Prop where
  ok : c.Ok
  proto : d.sinfo.proto = c.encode
  indexes : d.sinfo.Indexes
  sinst : d.sinst.tableProto = c.shared.map fun place => c.places.idxOf place

namespace Refines
variable {d : Databases} {c : Catalogue} {place : String × Address} {name : String} {offset : Address}

theorem wellFormed (refines : Refines d c) : d.sinfo.proto.WellFormed :=
  refines.proto ▸ Catalogue.encode_wellFormed refines.ok

theorem names_eq (refines : Refines d c) : d.sinfo.proto.image.map ImageProto.name = c.images := by
  rw [refines.proto, Catalogue.map_image_encode]

theorem findImageByName (refines : Refines d c) (known : name ∈ c.images) :
    d.sinfo.findImageByName name = some (c.images.idxOf name) := by
  rw [StaticInfo.findImageByName_iff refines.wellFormed refines.indexes, refines.names_eq]
  exact List.getElem?_idxOf known

/-- Where an instruction is found. -/
theorem find_iff (refines : Refines d c) (known : name ∈ c.images) {k : ℕ} :
    d.sinfo.find (c.images.idxOf name) offset = some k ↔ c.places[k]? = some (name, offset) := by
  rw [refines.indexes.offsets]
  have entry_iff : (∃ inst, d.sinfo.proto.inst[k]? = some inst ∧ inst.imageId.toNat = c.images.idxOf name + 1 ∧
      inst.offset = offset) ↔ c.places[k]? = some (name, offset) := by
    rw [refines.proto, Catalogue.places, List.getElem?_map, Option.map_eq_some_iff]
    constructor
    · rintro ⟨inst, found, own, rfl⟩
      simp only [Catalogue.encode, List.getElem?_mapIdx, Option.map_eq_some_iff] at found
      obtain ⟨entry, here, rfl⟩ := found
      have home := refines.ok.homes entry (List.mem_of_getElem? here)
      rw [Catalogue.imageId_toNat refines.ok home, Nat.succ_inj] at own
      exact ⟨entry, here, Prod.ext ((List.idxOf_inj home).mp own) rfl⟩
    · rintro ⟨entry, here, same⟩
      cases same
      exact ⟨_, Catalogue.encode_at c here, Catalogue.imageId_toNat refines.ok known, rfl⟩
  rw [entry_iff, and_iff_right_iff_imp, refines.proto]
  intro here
  simpa [Catalogue.encode, Catalogue.places] using (List.getElem?_eq_some_iff.mp here).1

theorem modify_last {A : Type} (l : List A) (a : A) (f : A → A) : (l ++ [a]).modify l.length f = l ++ [f a] := by
  apply List.ext_getElem?
  intro k
  rw [List.getElem?_modify]
  rcases Nat.lt_trichotomy k l.length with before | rfl | after
  · rw [List.getElem?_append_left before, List.getElem?_append_left before]
    simp [Nat.ne_of_gt before]
  · simp
  · have beyond (b : A) : (l ++ [b])[k]? = none :=
      List.getElem?_eq_none (by rw [List.length_append, List.length_singleton]; omega)
    rw [beyond, beyond]
    rfl

theorem getInst (refines : Refines d c) {image : Option String} {source : DebugInfoProto}
    (known : image.getD pseudoImageName ∈ c.images)
    (room : (c.see (image.getD pseudoImageName, offset) source).insts.length < 2 ^ 32) :
    ∃ sinfo, d.sinfo.getInst image offset source = some (sinfo,
        (c.see (image.getD pseudoImageName, offset) source).places.idxOf (image.getD pseudoImageName, offset)) ∧
      Refines { d with sinfo := sinfo } (c.see (image.getD pseudoImageName, offset) source) := by
  generalize name_eq : image.getD pseudoImageName = name at known room ⊢
  have image_eq := refines.findImageByName known
  have ok' : (c.see (name, offset) source).Ok := refines.ok.see known room
  by_cases seen : (name, offset) ∈ c.places
  · have found := (refines.find_iff known).mpr (List.getElem?_idxOf seen)
    have same : c.see (name, offset) source = c := by rw [Catalogue.see, if_pos seen]
    rw [same]
    refine ⟨d.sinfo, ?_, refines⟩
    simp only [StaticInfo.getInst, name_eq, image_eq, Option.bind_eq_bind, Option.bind_some, found]
    rfl
  · have fresh : d.sinfo.find (c.images.idxOf name) offset = none := by
      refine Option.eq_none_iff_forall_ne_some.mpr fun k found => seen ?_
      exact List.mem_of_getElem? ((refines.find_iff known).mp found)
    have lengths : d.sinfo.proto.inst.length = c.insts.length ∧ d.sinfo.proto.image.length = c.images.length := by
      rw [refines.proto]
      simp [Catalogue.encode]
    have added : c.see (name, offset) source = { c with
        insts := c.insts ++ [{ image := name, offset := offset,
                               debugInfo := if source.fileName ≠ "" then some source else none }] } := by
      rw [Catalogue.see, if_neg seen]
    rw [added] at room ok' ⊢
    rw [List.length_append, List.length_singleton, ← lengths.1] at room
    obtain ⟨next, created, proto, wellFormed, indexes⟩ := StaticInfo.createInst_spec refines.wellFormed refines.indexes
      (lengths.2 ▸ List.idxOf_lt_length_of_mem known) fresh room
    obtain ⟨wellFormed', indexes'⟩ := StaticInfo.modify_spec wellFormed indexes d.sinfo.proto.inst.length
      (f := fun p => if p.debugInfo = none ∧ source.fileName ≠ "" then { p with debugInfo := some source } else p)
      (fun p => by split <;> rfl) (fun p => by split <;> rfl) fun p => by split <;> rfl
    refine ⟨next.updateInstDebugInfo d.sinfo.proto.inst.length source, ?_, ok', ?_, indexes', ?_⟩
    · simp only [StaticInfo.getInst, name_eq, image_eq, Option.bind_eq_bind, Option.bind_some, fresh, created]
      have last : (c.places ++ [(name, offset)]).idxOf (name, offset) = c.places.length := by
        rw [List.idxOf_append_of_notMem seen]
        simp
      simp only [Catalogue.places, List.map_append, List.map_cons, List.map_nil, Entry.place] at last ⊢
      rw [last, List.length_map, ← lengths.1]
      rfl
    · rw [StaticInfo.updateInstDebugInfo, proto, modify_last, refines.proto]
      simp only [Catalogue.encode, List.mapIdx_concat, List.length_mapIdx, Catalogue.imageId]
      by_cases named : source.fileName = ""
      · simp [named]
      · simp [named]
    · rw [refines.sinst]
      apply List.map_congr_left
      intro other member
      simp only [Catalogue.places, List.map_append]
      exact (List.idxOf_append_of_mem (refines.ok.shared other member)).symm

theorem inst_id (refines : Refines d c) (member : place ∈ c.places) :
    (d.sinfo.proto.inst[c.places.idxOf place]?).map InstProto.id = some (c.instId place) := by
  have here := List.getElem?_idxOf member
  rw [Catalogue.places, List.getElem?_map, Option.map_eq_some_iff] at here
  obtain ⟨entry, found, -⟩ := here
  rw [refines.proto, Catalogue.places, Catalogue.encode_at c found]
  rfl

theorem opcode (refines : Refines d c) (member : place ∈ c.places) (code : BitVec 32) :
    Refines { d with sinfo := d.sinfo.updateInstOpcode (c.places.idxOf place) code } (c.note place code) := by
  obtain ⟨_, indexes⟩ := StaticInfo.modify_spec refines.wellFormed refines.indexes (c.places.idxOf place)
    (f := fun p => if p.opcode = none then { p with opcode := some code } else p)
    (fun p => by split <;> rfl) (fun p => by split <;> rfl) fun p => by split <;> rfl
  refine ⟨refines.ok.note code, ?_, indexes, ?_⟩
  · rw [StaticInfo.updateInstOpcode, refines.proto]
    refine congrArg (StaticInfoProto.mk c.encode.image) (List.ext_getElem? fun k => ?_)
    rw [List.getElem?_modify]
    simp only [Catalogue.encode, Catalogue.note, List.getElem?_mapIdx, List.getElem?_map]
    cases found : c.insts[k]? with
    | none => rfl
    | some entry =>
      have here : c.places[k]? = some entry.place := by rw [Catalogue.places, List.getElem?_map, found, Option.map_some]
      have own : c.places.idxOf place = k ↔ entry.place = place := by
        constructor
        · rintro rfl
          exact Option.some.inj (here.symm.trans (List.getElem?_idxOf member))
        · rintro rfl
          have bound := (List.getElem?_eq_some_iff.mp here).1
          exact ((List.getElem?_inj bound refines.ok.places).mp (here.trans (List.getElem?_idxOf member).symm)).symm
      by_cases at_place : entry.place = place
      · by_cases unset : entry.opcode = none
        · simp [own.mpr at_place, at_place, unset, Catalogue.imageId]
        · simp [own.mpr at_place, at_place, unset, Catalogue.imageId]
      · simp [mt own.mp at_place, at_place, Catalogue.imageId]
  · rw [Catalogue.places_note]
    exact refines.sinst

theorem shared_iff (refines : Refines d c) :
    c.places.idxOf place ∈ d.sinst.tableProto ↔ place ∈ c.shared := by
  rw [refines.sinst, List.mem_map]
  constructor
  · rintro ⟨other, listed, same⟩
    exact (List.idxOf_inj (refines.ok.shared other listed)).mp same ▸ listed
  · intro listed
    exact ⟨place, listed, rfl⟩

theorem setShared (refines : Refines d c) (member : place ∈ c.places) :
    Refines { d with sinst := d.sinst.setShared (c.places.idxOf place) }
      { c with shared := enter place c.shared } := by
  refine ⟨⟨refines.ok.imageRoom, refines.ok.instRoom, refines.ok.pseudo, refines.ok.images, refines.ok.homes,
    refines.ok.places, fun other listed => ?_⟩, refines.proto, refines.indexes, ?_⟩
  · rcases Catalogue.mem_enter.mp listed with rfl | before
    · exact member
    · exact refines.ok.shared other before
  · have known := (d.sinst.indexed (c.places.idxOf place)).trans refines.shared_iff
    unfold SharedInstDB.setShared enter
    by_cases listed : place ∈ c.shared
    · rw [dif_pos (known.mpr listed), if_pos listed]
      exact refines.sinst
    · rw [dif_neg (mt known.mp listed), if_neg listed, List.map_append]
      exact congrArg (· ++ [c.places.idxOf place]) refines.sinst

theorem imageLoad (refines : Refines d c) (room : (c.apply (.imageLoad name)).images.length < 2 ^ 32) :
    Refines { d with sinfo := d.sinfo.imageLoad name } (c.apply (.imageLoad name)) := by
  by_cases known : name ∈ c.images
  · have same : c.apply (.imageLoad name) = c := by rw [Catalogue.apply, enter, if_pos known]
    rw [same, StaticInfo.imageLoad, refines.findImageByName known]
    exact refines
  · have added : c.apply (.imageLoad name) = { c with images := c.images ++ [name] } := by
      rw [Catalogue.apply, enter, if_neg known]
    rw [added] at room ⊢
    have absent : d.sinfo.findImageByName name = none :=
      (StaticInfo.findImageByName_none refines.wellFormed refines.indexes).mpr (by rwa [refines.names_eq])
    have length : d.sinfo.proto.image.length = c.images.length := by
      rw [refines.proto]
      simp [Catalogue.encode]
    rw [List.length_append, List.length_singleton, ← length] at room
    obtain ⟨proto, _, indexes⟩ := StaticInfo.createImage_spec refines.wellFormed refines.indexes
      (by rwa [refines.names_eq]) room
    rw [StaticInfo.imageLoad, absent]
    refine ⟨⟨?_, refines.ok.instRoom, List.mem_append_left _ refines.ok.pseudo, ?_, fun entry member => ?_,
      refines.ok.places, refines.ok.shared⟩, ?_, indexes, refines.sinst⟩
    · rwa [List.length_append, List.length_singleton, ← length]
    · exact List.nodup_append.mpr ⟨refines.ok.images, by simp, by
        rintro a member b last rfl
        exact known (List.mem_singleton.mp last ▸ member)⟩
    · exact List.mem_append_left _ (refines.ok.homes entry member)
    · rw [proto, refines.proto]
      simp only [Catalogue.encode, List.mapIdx_concat, List.length_mapIdx]
      congr 1
      refine List.mapIdx_eq_mapIdx_iff.mpr fun k bound => ?_
      have home := refines.ok.homes _ (List.getElem_mem bound)
      rw [Catalogue.imageId, Catalogue.imageId, List.idxOf_append_of_mem home]

/-- The shared instructions are saved in the order in which they were set. -/
theorem save_shared (refines : Refines d c) : d.sinst.save d.sinfo = c.shared.map c.instId := by
  rw [SharedInstDB.save, refines.sinst, List.filterMap_map, ← List.filterMap_eq_map]
  refine List.filterMap_congr fun place member => ?_
  exact refines.inst_id (refines.ok.shared place member)

/-- Databases are loaded as they were saved. -/
theorem restart (refines : Refines d c) :
    ∃ next, d.step .restart = some (next, none) ∧ Refines next c := by
  obtain ⟨sinfo, loaded, proto, indexes⟩ := StaticInfo.load_spec refines.wellFormed
  have start : Refines { sinfo := sinfo, sinst := d.sinst } c := ⟨refines.ok, proto.trans refines.proto, indexes,
    refines.sinst⟩
  have setup : StaticInfo.setup d.sinfo.save = some sinfo := by
    rw [StaticInfo.setup, StaticInfo.save, loaded, Option.bind_eq_bind, Option.bind_some, StaticInfo.imageLoad,
      start.findImageByName refines.ok.pseudo]
    rfl
  have loads : ∀ (rest : List (String × Address)) (db : SharedInstDB), (∀ place ∈ rest, place ∈ c.places) →
      (db.tableProto ++ rest.map c.places.idxOf).Nodup →
      ∃ last, (rest.map c.instId).foldlM (fun (db : SharedInstDB) id => (sinfo.findInst id).map db.setShared) db =
        some last ∧ last.tableProto = db.tableProto ++ rest.map c.places.idxOf := by
    intro rest
    induction rest with
    | nil => exact fun db _ _ => ⟨db, rfl, by simp⟩
    | cons place rest ih =>
      intro db known distinct
      obtain ⟨here, others⟩ := List.forall_mem_cons.mp known
      have bound := List.idxOf_lt_length_of_mem here
      have found : sinfo.findInst (c.instId place) = some (c.places.idxOf place) := by
        refine (indexes.instMap _ _).mpr ⟨?_, Catalogue.instId_toNat refines.ok here⟩
        rw [start.proto]
        simpa [Catalogue.encode, Catalogue.places] using bound
      have fresh : c.places.idxOf place ∉ db.sharedInstSet := by
        rw [db.indexed]
        intro listed
        exact (List.nodup_append.mp distinct).2.2 _ listed _ List.mem_cons_self rfl
      have added : (db.setShared (c.places.idxOf place)).tableProto = db.tableProto ++ [c.places.idxOf place] := by
        rw [SharedInstDB.setShared, dif_neg fresh]
      obtain ⟨last, ran, table⟩ := ih (db.setShared (c.places.idxOf place)) others (by
        rw [added, List.append_assoc]
        exact distinct)
      refine ⟨last, ?_, by rw [table, added, List.append_assoc]; rfl⟩
      rw [List.map_cons, List.foldlM_cons, found]
      exact ran
  obtain ⟨sinst, ran, table⟩ := loads c.shared {} refines.ok.shared (by
    have distinct := d.sinst.distinct
    rw [refines.sinst] at distinct
    exact distinct)
  refine ⟨⟨sinfo, sinst⟩, ?_, ⟨refines.ok, start.proto, indexes, table⟩⟩
  rw [Databases.step, setup, Option.bind_eq_bind, Option.bind_some, SharedInstDB.load, refines.save_shared]
  simp only [ran, Option.bind_eq_bind, Option.bind_some]
  rfl

theorem step (refines : Refines d c) {e : Event} (allowed : d.Allows e)
    (imageRoom : (c.apply e).images.length < 2 ^ 32) (instRoom : (c.apply e).insts.length < 2 ^ 32) :
    ∃ next, d.step e = some (next, Catalogue.answer (c.apply e) c e) ∧ Refines next (c.apply e) := by
  cases e with
  | imageLoad name => exact ⟨_, rfl, refines.imageLoad imageRoom⟩
  | restart => exact refines.restart
  | use image offset source use =>
    generalize place_eq : (image.getD pseudoImageName, offset) = place
    have known : image.getD pseudoImageName ∈ c.images := by
      by_contra absent
      have missing := (StaticInfo.findImageByName_none refines.wellFormed refines.indexes).mpr
        (by rwa [refines.names_eq])
      rw [Databases.Allows, missing] at allowed
      contradiction
    have seenRoom : (c.see place source).insts.length < 2 ^ 32 := by
      cases use <;> simpa [Catalogue.apply, Catalogue.note, place_eq] using instRoom
    subst place_eq
    obtain ⟨sinfo, got, seen⟩ := refines.getInst known seenRoom
    have member := Catalogue.mem_see c (image.getD pseudoImageName, offset) source
    have id := seen.inst_id member
    simp only [Databases.step, got, Option.bind_eq_bind, Option.bind_some, id]
    cases use with
    | lookup => exact ⟨_, rfl, seen⟩
    | opcode code =>
      refine ⟨_, ?_, seen.opcode member code⟩
      simp only [Catalogue.answer, Catalogue.apply, Catalogue.instId, Catalogue.places_note]
      rfl
    | setShared => exact ⟨_, rfl, seen.setShared member⟩
    | shared =>
      refine ⟨_, ?_, seen⟩
      have asked : d.sinst.shared ((c.see (image.getD pseudoImageName, offset) source).places.idxOf
          (image.getD pseudoImageName, offset)) = decide ((image.getD pseudoImageName, offset) ∈ c.shared) := by
        have same : (c.see (image.getD pseudoImageName, offset) source).shared = c.shared := by
          unfold Catalogue.see
          split <;> rfl
        rw [Bool.eq_iff_iff, decide_eq_true_iff, ← same, ← seen.shared_iff, ← d.sinst.indexed, SharedInstDB.shared,
          Std.ExtTreeSet.contains_iff_mem]
      simp only [Catalogue.answer, Catalogue.apply, asked]
      rfl

end Refines

/-- Answers mention the same identifiers later. -/
theorem answer_grows {c all : Catalogue} (e : Event) (grows : (c.apply e).Grows all) :
    Catalogue.answer (c.apply e) c e = Catalogue.answer all c e := by
  cases e with
  | imageLoad name => rfl
  | restart => rfl
  | use image offset source use =>
    have member : (image.getD pseudoImageName, offset) ∈ (c.apply (.use image offset source use)).places := by
      have seen := Catalogue.mem_see c (image.getD pseudoImageName, offset) source
      cases use with
      | lookup => exact seen
      | shared => exact seen
      | setShared => exact seen
      | opcode code =>
        rw [Catalogue.apply, Catalogue.places_note]
        exact seen
    cases use <;> simp only [Catalogue.answer, grows.instId member]

theorem refines_first : Refines Databases.first {} := by
  refine ⟨⟨by decide, by decide, by decide, by decide, by decide, by decide, by decide⟩, rfl, ?_, rfl⟩
  have start : ({} : StaticInfo).proto.WellFormed :=
    ⟨by decide, by decide, by simp, by simp, by simp, by simp, by simp⟩
  have indexes : ({} : StaticInfo).Indexes := ⟨rfl, rfl, rfl, by simp, by simp, by simp [StaticInfo.find]⟩
  exact (StaticInfo.createImage_spec start indexes (by simp) (by decide)).2.2

/-- The catalogue of a trace. -/
def catalogue (tr : List Event) : Catalogue := tr.foldl Catalogue.apply {}

theorem run_refines {tr : List Event} {d : Databases} {c : Catalogue} (refines : Refines d c)
    (allowed : Runs.Along Databases.step Databases.Allows d tr)
    (imageRoom : (tr.foldl Catalogue.apply c).images.length < 2 ^ 32)
    (instRoom : (tr.foldl Catalogue.apply c).insts.length < 2 ^ 32) :
    ∃ last, Runs.run Databases.step d tr =
        some (last, Catalogue.answers (tr.foldl Catalogue.apply c) c tr) ∧
      Refines last (tr.foldl Catalogue.apply c) := by
  induction tr generalizing d c with
  | nil => exact ⟨d, rfl, refines⟩
  | cons e tr ih =>
    obtain ⟨here, along⟩ := allowed
    have grows := Catalogue.foldl_grows (c.apply e) tr
    obtain ⟨next, stepped, refines'⟩ := refines.step here
      (Nat.lt_of_le_of_lt grows.length_images imageRoom) (Nat.lt_of_le_of_lt grows.length_insts instRoom)
    simp only [stepped] at along
    obtain ⟨last, ran, final⟩ := ih refines' along imageRoom instRoom
    refine ⟨last, ?_, final⟩
    rw [answer_grows e grows] at stepped
    exact Runs.run_cons stepped ran

/-- Over any number of runs, the saved files are the catalogue of what the runs saw. An
instruction has one identifier, no other instruction has it, and an instruction is shared
when some run has said so. -/
theorem databases_exact {tr : List Event} (allowed : Runs.Along Databases.step Databases.Allows .first tr)
    (imageRoom : (catalogue tr).images.length < 2 ^ 32) (instRoom : (catalogue tr).insts.length < 2 ^ 32) :
    ∃ last, Runs.run Databases.step .first tr = some (last, Catalogue.answers (catalogue tr) {} tr) ∧
      last.sinfo.save = (catalogue tr).encode ∧
      last.sinst.save last.sinfo = (catalogue tr).shared.map (catalogue tr).instId ∧
      Set.InjOn (catalogue tr).instId {place | place ∈ (catalogue tr).places} := by
  obtain ⟨last, ran, refines⟩ := run_refines refines_first allowed imageRoom instRoom
  exact ⟨last, ran, refines.proto, refines.save_shared, Catalogue.instId_injOn refines.ok⟩

/-- Two runs of a program and of code outside all images. -/
def databasesTrace : List Event :=
  [.imageLoad "/bin/prog", .use (some "/bin/prog") 0x10 ⟨"prog.c", 3, 1⟩ (.opcode 7),
    .use none 0x7fff0000 ⟨"", 0, 0⟩ .setShared, .restart, .imageLoad "/lib/libc.so",
    .use (some "/lib/libc.so") 0x10 ⟨"", 0, 0⟩ .shared, .imageLoad "/bin/prog",
    .use (some "/bin/prog") 0x10 ⟨"other.c", 4, 1⟩ (.opcode 8), .use none 0x7fff0000 ⟨"", 0, 0⟩ .shared]

theorem databases_exact_restart :
    ∃ last, Runs.run Databases.step .first databasesTrace =
        some (last, Catalogue.answers (catalogue databasesTrace) {} databasesTrace) ∧
      last.sinfo.save = (catalogue databasesTrace).encode ∧
      last.sinst.save last.sinfo = (catalogue databasesTrace).shared.map (catalogue databasesTrace).instId ∧
      Set.InjOn (catalogue databasesTrace).instId {place | place ∈ (catalogue databasesTrace).places} :=
  databases_exact (by decide +kernel) (by decide) (by decide)

end Maple.Sinst
