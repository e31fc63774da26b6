import Maple.Core.StaticInfo
import Maple.Sinst.Analyzer

/-! The static information and the shared instructions over any number of runs, which load
what the last run saved. Both databases are the catalogue of what the runs have seen, in the
order in which they first saw it. -/
namespace Maple.Sinst
open Static

namespace SharedInstDB

def save (db : SharedInstDB) (sinfo : StaticInfo) : List (BitVec 32) :=
  db.tableProto.filterMap fun inst => (sinfo.proto.inst[inst]?).map InstProto.id

def load (sinfo : StaticInfo) (p : List (BitVec 32)) : Option SharedInstDB :=
  p.foldlM (fun (db : SharedInstDB) id => (sinfo.findInst id).map db.setShared) {}

end SharedInstDB

/-- What is done with an instruction. -/
inductive Use where
  | lookup
  | opcode (code : BitVec 32)
  | setShared
  | shared
  deriving DecidableEq

/-- `restart` saves both databases and loads them in the next run. -/
inductive Event where
  | imageLoad (name : String)
  | use (image : Option String) (offset : Address) (source : DebugInfoProto) (use : Use)
  | restart
  deriving DecidableEq

structure Databases where
  sinfo : StaticInfo := {}
  sinst : SharedInstDB := {}

/-- The identifier of an instruction, and whether it is shared if that was asked for. -/
abbrev Answer := Option (BitVec 32 × Option Bool)

namespace Databases

/-- The first run finds no files. -/
def first : Databases := { sinfo := ({} : StaticInfo).imageLoad pseudoImageName }

example : StaticInfo.setup {} = some first.sinfo := rfl

def step (d : Databases) : Event → Option (Databases × Answer)
  | .imageLoad name => some ({ d with sinfo := d.sinfo.imageLoad name }, none)
  | .use image offset source use => do
    let (sinfo, inst) ← d.sinfo.getInst image offset source
    let id ← (sinfo.proto.inst[inst]?).map InstProto.id
    match use with
    | .lookup => return ({ d with sinfo := sinfo }, some (id, none))
    | .opcode code => return ({ d with sinfo := sinfo.updateInstOpcode inst code }, some (id, none))
    | .setShared => return ({ d with sinfo := sinfo, sinst := d.sinst.setShared inst }, some (id, none))
    | .shared => return ({ d with sinfo := sinfo }, some (id, some (d.sinst.shared inst)))
  | .restart => do
    let sinfo ← StaticInfo.setup d.sinfo.save
    let sinst ← SharedInstDB.load sinfo (d.sinst.save d.sinfo)
    return (⟨sinfo, sinst⟩, none)

/-- Code is in an image that has been loaded, or in none. -/
def Allows (d : Databases) : Event → Prop
  | .use image _ _ _ => (d.sinfo.findImageByName (image.getD pseudoImageName)).isSome = true
  | _ => True

instance decidableAllows (d : Databases) (e : Event) : Decidable (d.Allows e) := by
  induction e using Event.casesOn <;> simp only [Allows] <;> infer_instance

end Databases

/-- An instruction of the catalogue. -/
structure Entry where
  image : String
  offset : Address
  opcode : Option (BitVec 32) := none
  debugInfo : Option DebugInfoProto := none

def Entry.place (entry : Entry) : String × Address := (entry.image, entry.offset)

/-- The images and instructions that the runs have seen, and which are shared. -/
structure Catalogue where
  images : List String := [pseudoImageName]
  insts : List Entry := []
  shared : List (String × Address) := []

def enter {A : Type} [DecidableEq A] (a : A) (l : List A) : List A := if a ∈ l then l else l ++ [a]

namespace Catalogue

def places (c : Catalogue) : List (String × Address) := c.insts.map Entry.place

/-- The identifier of a place. -/
def instId (c : Catalogue) (place : String × Address) : BitVec 32 := BitVec.ofNat 32 (c.places.idxOf place + 1)

def imageId (c : Catalogue) (image : String) : BitVec 32 := BitVec.ofNat 32 (c.images.idxOf image + 1)

/-- Where an instruction comes from is noted when it is first seen. -/
def see (c : Catalogue) (place : String × Address) (source : DebugInfoProto) : Catalogue :=
  if place ∈ c.places then c
  else
    { c with
      insts := c.insts ++ [{ image := place.1, offset := place.2,
                             debugInfo := if source.fileName ≠ "" then some source else none }] }

/-- The first operation code stays. -/
def note (c : Catalogue) (place : String × Address) (code : BitVec 32) : Catalogue :=
  { c with
    insts := c.insts.map fun entry =>
      if entry.place = place ∧ entry.opcode = none then { entry with opcode := some code } else entry }

def apply (c : Catalogue) : Event → Catalogue
  | .imageLoad name => { c with images := enter name c.images }
  | .use image offset source use =>
    let place := (image.getD pseudoImageName, offset)
    let c := c.see place source
    match use with
    | .lookup | .shared => c
    | .opcode code => c.note place code
    | .setShared => { c with shared := enter place c.shared }
  | .restart => c

/-- What a use is answered, when the identifiers are those of the catalogue `all`. -/
def answer (all c : Catalogue) : Event → Answer
  | .use image offset _ .shared => some (all.instId (image.getD pseudoImageName, offset),
    some (decide ((image.getD pseudoImageName, offset) ∈ c.shared)))
  | .use image offset _ _ => some (all.instId (image.getD pseudoImageName, offset), none)
  | _ => none

def answers (all : Catalogue) : Catalogue → List Event → List Answer
  | _, [] => []
  | c, e :: tr => all.answer c e :: answers all (c.apply e) tr

/-- The file. -/
def encode (c : Catalogue) : StaticInfoProto where
  image := c.images.mapIdx fun k name => ⟨BitVec.ofNat 32 (k + 1), name⟩
  inst := c.insts.mapIdx fun k entry =>
    ⟨BitVec.ofNat 32 (k + 1), c.imageId entry.image, entry.offset, entry.opcode, entry.debugInfo⟩

/-- Nothing is listed twice, and instructions are in images. -/
structure Ok (c : Catalogue) : Prop where
  imageRoom : c.images.length < 2 ^ 32
  instRoom : c.insts.length < 2 ^ 32
  pseudo : pseudoImageName ∈ c.images
  images : c.images.Nodup
  homes : ∀ entry ∈ c.insts, entry.image ∈ c.images
  places : c.places.Nodup
  shared : ∀ place ∈ c.shared, place ∈ c.places

/-- One catalogue after more events. -/
structure Grows (c c' : Catalogue) : Prop where
  images : c.images <+: c'.images
  places : c.places <+: c'.places

end Catalogue
end Maple.Sinst
