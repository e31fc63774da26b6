import Maple.Core.BasicTypes
import Maple.Lib.Runs

/-! The images and instructions of `core/static_info.cc`, and how the execution control finds
them. An image or an instruction is the position of its message in the database. -/
namespace Maple.Static

structure DebugInfoProto where
  fileName : String
  line : BitVec 32
  column : BitVec 32
  deriving DecidableEq

structure ImageProto where
  id : BitVec 32
  name : String
  deriving DecidableEq

structure InstProto where
  id : BitVec 32
  imageId : BitVec 32
  offset : Address
  opcode : Option (BitVec 32) := none
  debugInfo : Option DebugInfoProto := none
  deriving DecidableEq

structure StaticInfoProto where
  image : List ImageProto := []
  inst : List InstProto := []
  deriving DecidableEq

def pseudoImageName : String := "PSEUDO_IMAGE"

/-- `instOffsetMap` holds the map of each image. -/
structure StaticInfo where
  proto : StaticInfoProto := {}
  currImageId : BitVec 32 := 0
  currInstId : BitVec 32 := 0
  imageMap : OrdMap (BitVec 32) ℕ := {}
  instMap : OrdMap (BitVec 32) ℕ := {}
  instOffsetMap : OrdMap ℕ (OrdMap Address ℕ) := {}

namespace StaticInfo

/-- `Image::Find`. -/
def find (s : StaticInfo) (image : ℕ) (offset : Address) : Option ℕ := (s.instOffsetMap[image]?.getD {})[offset]?

/-- `Image::Register`. -/
def register (s : StaticInfo) (image inst : ℕ) (offset : Address) : StaticInfo :=
  { s with
    instOffsetMap := s.instOffsetMap.insert image ((s.instOffsetMap[image]?.getD {}).insert offset inst) }

def createImage (s : StaticInfo) (name : String) : StaticInfo × ℕ :=
  let id := s.currImageId + 1
  let image := s.proto.image.length
  ({ s with
      proto := { s.proto with image := s.proto.image ++ [⟨id, name⟩] }
      currImageId := id
      imageMap := s.imageMap.insert id image }, image)

def createInst (s : StaticInfo) (image : ℕ) (offset : Address) : Option (StaticInfo × ℕ) := do
  let own ← s.proto.image[image]?
  let id := s.currInstId + 1
  let inst := s.proto.inst.length
  let message : InstProto := { id := id, imageId := own.id, offset := offset }
  let s := { s with
    proto := { s.proto with inst := s.proto.inst ++ [message] }
    currInstId := id
    instMap := s.instMap.insert id inst }
  return (s.register image inst offset, inst)

/-- `FindImage` of a name goes through the images by their identifiers. -/
def findImageByName (s : StaticInfo) (name : String) : Option ℕ :=
  (s.imageMap.toList.find? fun entry => (s.proto.image[entry.2]?).any (·.name = name)).map Prod.snd

def findImage (s : StaticInfo) (id : BitVec 32) : Option ℕ := s.imageMap[id]?

def findInst (s : StaticInfo) (id : BitVec 32) : Option ℕ := s.instMap[id]?

def loadImage (s : StaticInfo) (entry : ImageProto × ℕ) : StaticInfo :=
  { s with
    imageMap := s.imageMap.insert entry.1.id entry.2
    currImageId := if s.currImageId < entry.1.id then entry.1.id else s.currImageId }

/-- An image that is not there is a null pointer. -/
def loadInst (s : StaticInfo) (entry : InstProto × ℕ) : Option StaticInfo := do
  let image ← s.findImage entry.1.imageId
  let s := { s with instMap := s.instMap.insert entry.1.id entry.2 }
  let s := s.register image entry.2 entry.1.offset
  return { s with currInstId := if s.currInstId < entry.1.id then entry.1.id else s.currInstId }

def load (p : StaticInfoProto) : Option StaticInfo :=
  p.inst.zipIdx.foldlM loadInst (p.image.zipIdx.foldl loadImage { proto := p })

def save (s : StaticInfo) : StaticInfoProto := s.proto

/-- `UpdateInstOpcode`. -/
def updateInstOpcode (s : StaticInfo) (inst : ℕ) (opcode : BitVec 32) : StaticInfo :=
  { s with
    proto := { s.proto with
      inst := s.proto.inst.modify inst fun p => if p.opcode = none then { p with opcode := some opcode } else p } }

/-- `UpdateInstDebugInfo`, with the location that the instrumentation tool finds. -/
def updateInstDebugInfo (s : StaticInfo) (inst : ℕ) (source : DebugInfoProto) : StaticInfo :=
  { s with
    proto := { s.proto with
      inst := s.proto.inst.modify inst fun p =>
        if p.debugInfo = none ∧ source.fileName ≠ "" then { p with debugInfo := some source } else p } }

/-- `GetInst`. Code outside all images is in the pseudo image. -/
def getInst (s : StaticInfo) (image : Option String) (offset : Address) (source : DebugInfoProto) :
    Option (StaticInfo × ℕ) := do
  let image ← s.findImageByName (image.getD pseudoImageName)
  match s.find image offset with
  | some inst => return (s, inst)
  | none =>
    let (s, inst) ← s.createInst image offset
    return (s.updateInstDebugInfo inst source, inst)

/-- `ExecutionControl::ImageLoad`. -/
def imageLoad (s : StaticInfo) (name : String) : StaticInfo :=
  match s.findImageByName name with
  | some _ => s
  | none => (s.createImage name).1

/-- What `ExecutionControl::PostSetup` loads. -/
def setup (p : StaticInfoProto) : Option StaticInfo := do
  let s ← load p
  return s.imageLoad pseudoImageName

end StaticInfo

/-- Messages numbered from one, with a place for each instruction. -/
structure StaticInfoProto.WellFormed (p : StaticInfoProto) : Prop where
  imageRoom : p.image.length < 2 ^ 32
  instRoom : p.inst.length < 2 ^ 32
  imageIds : ∀ (k : ℕ) image, p.image[k]? = some image → image.id = BitVec.ofNat 32 (k + 1)
  instIds : ∀ (k : ℕ) inst, p.inst[k]? = some inst → inst.id = BitVec.ofNat 32 (k + 1)
  homes : ∀ inst ∈ p.inst, 0 < inst.imageId.toNat ∧ inst.imageId.toNat ≤ p.image.length
  names : (p.image.map ImageProto.name).Nodup
  places : (p.inst.map fun inst => (inst.imageId, inst.offset)).Nodup

namespace StaticInfo

/-- The tables over the first messages. -/
structure Upto (p : StaticInfoProto) (images insts : ℕ) (s : StaticInfo) : Prop where
  proto : s.proto = p
  currImage : s.currImageId = BitVec.ofNat 32 images
  currInst : s.currInstId = BitVec.ofNat 32 insts
  imageMap : ∀ (id : BitVec 32) k, s.imageMap[id]? = some k ↔ k < images ∧ id.toNat = k + 1
  instMap : ∀ (id : BitVec 32) k, s.instMap[id]? = some k ↔ k < insts ∧ id.toNat = k + 1
  offsets : ∀ image offset k, s.find image offset = some k ↔
    k < insts ∧ ∃ inst, p.inst[k]? = some inst ∧ inst.imageId.toNat = image + 1 ∧ inst.offset = offset

section Load
variable {p : StaticInfoProto} {s : StaticInfo} {n m : ℕ}

theorem getElem?_insert_word {V : Type} (map : OrdMap (BitVec 32) V) (a b : BitVec 32) (v : V) :
    (map.insert a v)[b]? = if a = b then some v else map[b]? := by
  simp [Std.ExtTreeMap.getElem?_insert]

theorem find_register (s : StaticInfo) (image inst image' : ℕ) (offset offset' : Address) :
    (s.register image inst offset).find image' offset' =
      if image = image' ∧ offset = offset' then some inst else s.find image' offset' := by
  simp only [register, find, Std.ExtTreeMap.getElem?_insert, compare_eq_iff_eq]
  by_cases same : image = image'
  · subst same
    simp [Std.ExtTreeMap.getElem?_insert]
  · simp [same]

theorem ofNat_eq_iff {k : ℕ} (small : k < 2 ^ 32) (id : BitVec 32) : BitVec.ofNat 32 k = id ↔ id.toNat = k := by
  constructor
  · rintro rfl
    exact Nat.mod_eq_of_lt small
  · intro same
    exact BitVec.eq_of_toNat_eq (by rw [BitVec.toNat_ofNat, Nat.mod_eq_of_lt small, same])

/-- The next identifier is the largest one. -/
theorem ofNat_lt_succ {k : ℕ} (small : k + 1 < 2 ^ 32) : BitVec.ofNat 32 k < BitVec.ofNat 32 (k + 1) := by
  rw [BitVec.lt_def, BitVec.toNat_ofNat, BitVec.toNat_ofNat, Nat.mod_eq_of_lt small,
    Nat.mod_eq_of_lt (Nat.lt_of_succ_lt small)]
  exact Nat.lt_succ_self k

/-- One more number in a table. -/
theorem insert_number {map : OrdMap (BitVec 32) ℕ} (small : n + 1 < 2 ^ 32)
    (numbers : ∀ (id : BitVec 32) k, map[id]? = some k ↔ k < n ∧ id.toNat = k + 1) (id : BitVec 32) (k : ℕ) :
    (map.insert (BitVec.ofNat 32 (n + 1)) n)[id]? = some k ↔ k < n + 1 ∧ id.toNat = k + 1 := by
  rw [getElem?_insert_word]
  split
  · next same =>
    rw [ofNat_eq_iff small] at same
    simp only [Option.some.injEq]
    omega
  · next other =>
    rw [ofNat_eq_iff small] at other
    rw [numbers]
    omega

theorem drop_cons {A : Type} {l rest : List A} {a : A} (suffix : l.drop n = a :: rest) :
    l[n]? = some a ∧ l.drop (n + 1) = rest := by
  rw [← List.head?_drop, suffix, List.head?_cons, ← List.tail_drop, suffix, List.tail_cons]
  exact ⟨rfl, rfl⟩

theorem Upto.loadImage (upto : Upto p n m s) (wellFormed : p.WellFormed) {image : ImageProto}
    (here : p.image[n]? = some image) : Upto p (n + 1) m (s.loadImage (image, n)) := by
  have bound := (List.getElem?_eq_some_iff.mp here).1
  have small : n + 1 < 2 ^ 32 := Nat.lt_of_le_of_lt bound wellFormed.imageRoom
  refine ⟨upto.proto, ?_, upto.currInst, fun id k => ?_, upto.instMap, upto.offsets⟩
  · rw [StaticInfo.loadImage, wellFormed.imageIds n image here, upto.currImage, if_pos (ofNat_lt_succ small)]
  · rw [StaticInfo.loadImage, wellFormed.imageIds n image here]
    exact insert_number small upto.imageMap id k

theorem Upto.loadImages (wellFormed : p.WellFormed) (rest : List ImageProto) (suffix : p.image.drop n = rest)
    (upto : Upto p n m s) : Upto p (n + rest.length) m ((rest.zipIdx n).foldl StaticInfo.loadImage s) := by
  induction rest generalizing n s with
  | nil => exact upto
  | cons image rest ih =>
    obtain ⟨here, tail⟩ := drop_cons suffix
    rw [List.zipIdx_cons, List.foldl_cons, List.length_cons, ← Nat.add_assoc, Nat.add_right_comm]
    exact ih tail (upto.loadImage wellFormed here)

theorem Upto.findImage (upto : Upto p n m s) {id : BitVec 32} (positive : 0 < id.toNat) (known : id.toNat ≤ n) :
    s.findImage id = some (id.toNat - 1) :=
  (upto.imageMap id _).mpr ⟨by omega, by omega⟩

/-- The entry of one more instruction. -/
theorem Upto.register (upto : Upto p n m s) (wellFormed : p.WellFormed) {inst : InstProto} {image : ℕ}
    (here : p.inst[m]? = some inst) (home : inst.imageId.toNat = image + 1) (image' : ℕ) (offset : Address) (k : ℕ) :
    (s.register image m inst.offset).find image' offset = some k ↔ k < m + 1 ∧ ∃ inst, p.inst[k]? = some inst ∧
      inst.imageId.toNat = image' + 1 ∧ inst.offset = offset := by
  rw [find_register]
  have last : k < m + 1 ↔ k = m ∨ k < m := by omega
  split
  · next same =>
    obtain ⟨rfl, rfl⟩ := same
    simp only [Option.some.injEq]
    constructor
    · rintro rfl
      exact ⟨Nat.lt_succ_self _, inst, here, home, rfl⟩
    · rintro ⟨-, other, found, own, same⟩
      -- Two instructions are not at one place.
      have images := BitVec.eq_of_toNat_eq (own.trans home.symm)
      have first : (p.inst.map fun inst => (inst.imageId, inst.offset))[k]? = some (inst.imageId, inst.offset) := by
        rw [List.getElem?_map, found, Option.map_some, images, same]
      have second : (p.inst.map fun inst => (inst.imageId, inst.offset))[m]? = some (inst.imageId, inst.offset) := by
        rw [List.getElem?_map, here, Option.map_some]
      exact ((List.getElem?_inj (List.getElem?_eq_some_iff.mp first).1 wellFormed.places).mp
        (first.trans second.symm)).symm
  · next other =>
    rw [upto.offsets, last]
    constructor
    · rintro ⟨below, found⟩
      exact ⟨.inr below, found⟩
    · rintro ⟨rfl | below, found⟩
      · obtain ⟨inst', found, own, same⟩ := found
        cases here.symm.trans found
        exact absurd ⟨by omega, same⟩ other
      · exact ⟨below, found⟩

theorem Upto.loadInst (upto : Upto p p.image.length m s) (wellFormed : p.WellFormed) {inst : InstProto}
    (here : p.inst[m]? = some inst) :
    ∃ next, s.loadInst (inst, m) = some next ∧ Upto p p.image.length (m + 1) next := by
  obtain ⟨bound, -⟩ := List.getElem?_eq_some_iff.mp here
  have small : m + 1 < 2 ^ 32 := Nat.lt_of_le_of_lt bound wellFormed.instRoom
  obtain ⟨positive, known⟩ := wellFormed.homes inst (List.mem_of_getElem? here)
  have id := wellFormed.instIds m inst here
  refine ⟨_, by rw [StaticInfo.loadInst, upto.findImage positive known]; rfl, ?_⟩
  refine ⟨upto.proto, upto.currImage, ?_, upto.imageMap, fun id' k => ?_, fun image offset k => ?_⟩
  · simp only [StaticInfo.register, id, upto.currInst, if_pos (ofNat_lt_succ small)]
  · simp only [StaticInfo.register, id]
    exact insert_number small upto.instMap id' k
  · exact upto.register wellFormed here (by omega) image offset k

theorem Upto.loadInsts (wellFormed : p.WellFormed) (rest : List InstProto) (suffix : p.inst.drop m = rest)
    (upto : Upto p p.image.length m s) :
    ∃ next, (rest.zipIdx m).foldlM StaticInfo.loadInst s = some next ∧
      Upto p p.image.length (m + rest.length) next := by
  induction rest generalizing m s with
  | nil => exact ⟨s, rfl, upto⟩
  | cons inst rest ih =>
    obtain ⟨here, tail⟩ := drop_cons suffix
    obtain ⟨middle, loaded, upto'⟩ := upto.loadInst wellFormed here
    obtain ⟨next, ran, done⟩ := ih tail upto'
    refine ⟨next, ?_, ?_⟩
    · rw [List.zipIdx_cons, List.foldlM_cons, loaded]
      exact ran
    · rwa [List.length_cons, ← Nat.add_assoc, Nat.add_right_comm]

/-- The tables of the whole database. -/
def Indexes (s : StaticInfo) : Prop := Upto s.proto s.proto.image.length s.proto.inst.length s

/-- A load of a well-formed file. -/
theorem load_spec (wellFormed : p.WellFormed) : ∃ s, load p = some s ∧ s.proto = p ∧ s.Indexes := by
  have start : Upto p 0 0 { proto := p } :=
    ⟨rfl, rfl, rfl, by simp, by simp, by simp [find]⟩
  have images := start.loadImages wellFormed p.image rfl
  rw [Nat.zero_add] at images
  obtain ⟨s, ran, upto⟩ := images.loadInsts wellFormed p.inst rfl
  rw [Nat.zero_add] at upto
  refine ⟨s, ran, upto.proto, ?_⟩
  have own := upto.proto
  subst own
  exact upto

end Load

section Operations
variable {s : StaticInfo}

theorem findImageByName_iff (wellFormed : s.proto.WellFormed) (indexes : s.Indexes) {name : String} {k : ℕ} :
    s.findImageByName name = some k ↔ (s.proto.image.map ImageProto.name)[k]? = some name := by
  have matches_iff : ∀ entry ∈ s.imageMap.toList, ((s.proto.image[entry.2]?).any (·.name = name) = true ↔
      (s.proto.image.map ImageProto.name)[entry.2]? = some name) := by
    intro entry _
    rw [List.getElem?_map]
    cases s.proto.image[entry.2]? with
    | none => simp
    | some image => simp
  have listed : ∀ entry, entry ∈ s.imageMap.toList ↔ entry.2 < s.proto.image.length ∧ entry.1.toNat = entry.2 + 1 :=
    fun entry => Std.ExtTreeMap.mem_toList_iff_getElem?_eq_some.trans (indexes.imageMap _ _)
  constructor
  · intro found
    obtain ⟨entry, first, rfl⟩ := Option.map_eq_some_iff.mp found
    exact (matches_iff entry (List.mem_of_find?_eq_some first)).mp (by simpa using List.find?_some first)
  · intro here
    obtain ⟨bound, -⟩ := List.getElem?_eq_some_iff.mp here
    rw [List.length_map] at bound
    have small : k + 1 < 2 ^ 32 := Nat.lt_of_le_of_lt bound wellFormed.imageRoom
    have member : (BitVec.ofNat 32 (k + 1), k) ∈ s.imageMap.toList :=
      (listed _).mpr ⟨bound, Nat.mod_eq_of_lt small⟩
    have isSome : (s.imageMap.toList.find? fun entry => (s.proto.image[entry.2]?).any (·.name = name)).isSome = true :=
      List.find?_isSome.mpr ⟨_, member, (matches_iff _ member).mpr here⟩
    obtain ⟨entry, first⟩ := Option.isSome_iff_exists.mp isSome
    have other := (matches_iff entry (List.mem_of_find?_eq_some first)).mp (by simpa using List.find?_some first)
    rw [findImageByName, first, Option.map_some]
    exact congrArg some ((List.getElem?_inj (List.getElem?_eq_some_iff.mp other).1 wellFormed.names).mp
      (other.trans here.symm))

theorem findImageByName_none (wellFormed : s.proto.WellFormed) (indexes : s.Indexes) {name : String} :
    s.findImageByName name = none ↔ name ∉ s.proto.image.map ImageProto.name := by
  rw [Option.eq_none_iff_forall_ne_some, List.mem_iff_getElem?]
  simp only [ne_eq, findImageByName_iff wellFormed indexes, not_exists]

theorem getElem?_concat_iff {A : Type} {l : List A} {a b : A} {k : ℕ} :
    (l ++ [a])[k]? = some b ↔ l[k]? = some b ∨ k = l.length ∧ a = b := by
  rw [List.getElem?_append]
  split
  · next before =>
    constructor
    · exact .inl
    · rintro (found | ⟨rfl, -⟩)
      · exact found
      · omega
  · next after =>
    rw [List.getElem?_eq_none (Nat.not_lt.mp after), List.getElem?_singleton]
    split
    · simp only [Option.some.injEq, reduceCtorEq, false_or]
      exact ⟨fun same => ⟨by omega, same⟩, And.right⟩
    · simp only [reduceCtorEq, false_or, false_iff]
      rintro ⟨rfl, -⟩
      omega

theorem createImage_spec (wellFormed : s.proto.WellFormed) (indexes : s.Indexes) {name : String}
    (fresh : name ∉ s.proto.image.map ImageProto.name) (room : s.proto.image.length + 1 < 2 ^ 32) :
    (s.createImage name).1.proto = { s.proto with
      image := s.proto.image ++ [⟨BitVec.ofNat 32 (s.proto.image.length + 1), name⟩] } ∧
      (s.createImage name).1.proto.WellFormed ∧ (s.createImage name).1.Indexes := by
  have id : s.currImageId + 1 = BitVec.ofNat 32 (s.proto.image.length + 1) := by
    rw [indexes.currImage, BitVec.ofNat_add]
    rfl
  refine ⟨by rw [createImage, id], ⟨?_, wellFormed.instRoom, fun k image found => ?_, wellFormed.instIds,
    fun inst member => ?_, ?_, wellFormed.places⟩, ⟨rfl, ?_, indexes.currInst, fun id' k => ?_, indexes.instMap,
    indexes.offsets⟩⟩
  · simpa [createImage] using room
  · rcases getElem?_concat_iff.mp found with before | ⟨rfl, rfl⟩
    · exact wellFormed.imageIds k image before
    · exact id
  · obtain ⟨positive, known⟩ := wellFormed.homes inst member
    refine ⟨positive, known.trans ?_⟩
    simp [createImage]
  · rw [createImage, List.map_append, List.nodup_append]
    refine ⟨wellFormed.names, by simp, fun a member b last => ?_⟩
    rw [List.map_singleton, List.mem_singleton] at last
    rintro rfl
    exact fresh ((show a = name from last) ▸ member)
  · rw [createImage, List.length_append, List.length_singleton]
    exact id
  · rw [createImage, id, List.length_append, List.length_singleton]
    exact insert_number room indexes.imageMap id' k

theorem createInst_spec (wellFormed : s.proto.WellFormed) (indexes : s.Indexes) {image : ℕ} {offset : Address}
    (known : image < s.proto.image.length) (fresh : s.find image offset = none)
    (room : s.proto.inst.length + 1 < 2 ^ 32) :
    let message : InstProto := { id := BitVec.ofNat 32 (s.proto.inst.length + 1),
                                 imageId := BitVec.ofNat 32 (image + 1), offset := offset }
    ∃ next, s.createInst image offset = some (next, s.proto.inst.length) ∧
      next.proto = { s.proto with inst := s.proto.inst ++ [message] } ∧ next.proto.WellFormed ∧ next.Indexes := by
  intro message
  have here := List.getElem?_eq_getElem known
  have own := wellFormed.imageIds image _ here
  have small : image + 1 < 2 ^ 32 := Nat.lt_of_le_of_lt known wellFormed.imageRoom
  have id : s.currInstId + 1 = BitVec.ofNat 32 (s.proto.inst.length + 1) := by
    rw [indexes.currInst, BitVec.ofNat_add]
    rfl
  have home : message.imageId.toNat = image + 1 := Nat.mod_eq_of_lt small
  let p : StaticInfoProto := { s.proto with inst := s.proto.inst ++ [message] }
  have wellFormed' : p.WellFormed := by
    refine ⟨wellFormed.imageRoom, by simpa [p] using room, wellFormed.imageIds, fun k inst found => ?_,
      fun inst member => ?_, wellFormed.names, ?_⟩
    · rcases getElem?_concat_iff.mp found with before | ⟨rfl, rfl⟩
      · exact wellFormed.instIds k inst before
      · rfl
    · rcases List.mem_append.mp member with before | last
      · exact wellFormed.homes inst before
      · rw [List.mem_singleton.mp last, home]
        exact ⟨Nat.succ_pos image, known⟩
    · rw [List.map_append, List.nodup_append]
      refine ⟨wellFormed.places, by simp, fun a member b last => ?_⟩
      rw [List.map_singleton, List.mem_singleton] at last
      rintro rfl
      obtain ⟨inst, listed, same⟩ := List.mem_map.mp member
      obtain ⟨k, found⟩ := List.mem_iff_getElem?.mp listed
      obtain ⟨images, offsets⟩ := Prod.mk.inj (same.trans last)
      have there := (indexes.offsets image offset k).mpr
        ⟨(List.getElem?_eq_some_iff.mp found).1, inst, found, (congrArg BitVec.toNat images).trans home, offsets⟩
      rw [fresh] at there
      contradiction
  have before : Upto p p.image.length s.proto.inst.length { s with proto := p } := by
    refine ⟨rfl, indexes.currImage, indexes.currInst, indexes.imageMap, indexes.instMap, fun image offset k => ?_⟩
    refine (indexes.offsets image offset k).trans (and_congr_right fun below => ?_)
    rw [List.getElem?_append_left below]
  have last : p.inst[s.proto.inst.length]? = some message := List.getElem?_concat_length
  have length : p.inst.length = s.proto.inst.length + 1 := by simp [p]
  let middle : StaticInfo := { s with
    proto := p
    currInstId := BitVec.ofNat 32 (s.proto.inst.length + 1)
    instMap := s.instMap.insert (BitVec.ofNat 32 (s.proto.inst.length + 1)) s.proto.inst.length }
  refine ⟨middle.register image s.proto.inst.length offset, ?_, rfl, wellFormed', rfl, indexes.currImage, ?_,
    indexes.imageMap, fun id' k => ?_, fun image' offset' k => ?_⟩
  · simp only [createInst, here, Option.bind_eq_bind, Option.bind_some, id, own]
    rfl
  · exact congrArg (BitVec.ofNat 32) length.symm
  · refine (insert_number room indexes.instMap id' k).trans ?_
    rw [← length]
    rfl
  · refine (before.register wellFormed' last home image' offset' k).trans ?_
    rw [← length]
    rfl

/-- A change of a message that keeps its number and its place. -/
theorem modify_spec (wellFormed : s.proto.WellFormed) (indexes : s.Indexes) (inst : ℕ) {f : InstProto → InstProto}
    (id : ∀ p, (f p).id = p.id) (image : ∀ p, (f p).imageId = p.imageId) (offset : ∀ p, (f p).offset = p.offset) :
    let next : StaticInfo := { s with proto := { s.proto with inst := s.proto.inst.modify inst f } }
    next.proto.WellFormed ∧ next.Indexes := by
  intro next
  have found : ∀ (k : ℕ) p, next.proto.inst[k]? = some p → ∃ q, s.proto.inst[k]? = some q ∧
      q.id = p.id ∧ q.imageId = p.imageId ∧ q.offset = p.offset := by
    intro k p here
    simp only [next, List.getElem?_modify, Option.map_eq_map, Option.map_eq_some_iff] at here
    obtain ⟨q, there, rfl⟩ := here
    refine ⟨q, there, ?_⟩
    split <;> simp [id, image, offset]
  have kept : ∀ (k : ℕ) q, s.proto.inst[k]? = some q → ∃ p, next.proto.inst[k]? = some p ∧
      q.id = p.id ∧ q.imageId = p.imageId ∧ q.offset = p.offset := by
    intro k q there
    refine ⟨if inst = k then f q else q, by simp [next, List.getElem?_modify, there], ?_⟩
    split <;> simp [id, image, offset]
  refine ⟨⟨wellFormed.imageRoom, by simpa [next] using wellFormed.instRoom, wellFormed.imageIds, fun k p here => ?_,
    fun p member => ?_, wellFormed.names, ?_⟩, ⟨rfl, indexes.currImage, ?_, indexes.imageMap, ?_, fun i o k => ?_⟩⟩
  · obtain ⟨q, there, same, -⟩ := found k p here
    exact same ▸ wellFormed.instIds k q there
  · obtain ⟨k, here⟩ := List.mem_iff_getElem?.mp member
    obtain ⟨q, there, -, same, -⟩ := found k p here
    exact same ▸ wellFormed.homes q (List.mem_of_getElem? there)
  · have places : (next.proto.inst.map fun inst => (inst.imageId, inst.offset)) =
        s.proto.inst.map fun inst => (inst.imageId, inst.offset) := by
      apply List.ext_getElem?
      intro k
      simp only [next, List.getElem?_map, List.getElem?_modify, Option.map_eq_map, Option.map_map]
      congr 1
      funext p
      simp only [Function.comp_apply]
      split <;> simp [image, offset]
    rw [places]
    exact wellFormed.places
  · simpa [next] using indexes.currInst
  · simpa [next] using indexes.instMap
  · refine (indexes.offsets i o k).trans ?_
    simp only [next, List.length_modify]
    refine and_congr_right fun _ => ⟨?_, ?_⟩
    · rintro ⟨q, there, own, same⟩
      obtain ⟨p, here, -, images, offsets⟩ := kept k q there
      exact ⟨p, here, images ▸ own, offsets ▸ same⟩
    · rintro ⟨p, here, own, same⟩
      obtain ⟨q, there, -, images, offsets⟩ := found k p here
      exact ⟨q, there, images.symm ▸ own, offsets.symm ▸ same⟩

end Operations
end StaticInfo
end Maple.Static
