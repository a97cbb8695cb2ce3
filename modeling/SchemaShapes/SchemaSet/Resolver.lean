import SchemaShapes.File.System
import SchemaShapes.SchemaSet.Error
import SchemaShapes.Text.Cut

/-! Resolvers: what the locations that are written in documents lead to. A resolver can lead to
finitely many places only. -/
namespace SchemaShapes

open File (Found Path)
open Text (cutAt)

/-- The document that a location leads to, seen from the document that it is written in. -/
abbrev Resolution := Option Path → String → Except SchemaSetError Found

structure Resolver where
  resolve : Resolution
  /-- The places that locations can lead to. -/
  locations : List Path
  resolve_mem : ∀ base location found, resolve base location = .ok found →
    found.location ∈ locations

namespace Resolver

/-- The resolver of given documents, each under the very text of its location. -/
def ofTexts (documents : List (String × String)) : Resolver where
  resolve _ location :=
    match documents.find? (·.1 = location) with
    | some (location, text) => .ok ⟨⟨location⟩, text⟩
    | none => .error (.unsupportedLocation location)
  locations := documents.map fun (location, _) => ⟨location⟩
  resolve_mem base location found h := by
    split at h
    · next hd =>
      cases h
      exact List.mem_map.2 ⟨_, List.mem_of_find?_eq_some hd, rfl⟩
    · cases h

/-- What stands before the path in a location of a file. -/
def fileMark : List Char := "file://".toList

/-- What stands between the scheme of a location and the rest of it. -/
def schemeMark : List Char := "://".toList

/-- The path that a location gives. Of the locations with a scheme only those of files do. -/
def pathOf (location : String) : Except SchemaSetError Path :=
  let cs := location.toList
  if fileMark.isPrefixOf cs then .ok ⟨String.ofList (cs.drop fileMark.length)⟩
  else if (cutAt schemeMark cs).isSome then .error (.unsupportedLocation location)
  else .ok ⟨location⟩

/-- The path of a location as it is seen from the folder of a document or, without a document,
from a given folder. -/
def pathFrom (folder base : Option Path) (location : String) : Except SchemaSetError Path := do
  let path ← pathOf location
  if path.isAbsolute then
    return path
  match (base.bind Path.parent).or folder with
  | some folder => return folder.join path
  | none => return path

/-- The document that a location leads to in a file system. -/
def findFile (files : File.System) (folder base : Option Path) (location : String) :
    Except SchemaSetError Found :=
  match pathFrom folder base location with
  | .error e => .error e
  | .ok path =>
    match files.read path with
    | some found => .ok found
    | none => .error (.unreadable path)

/-- The resolver of locations of files. -/
def ofFiles (files : File.System) (folder : Option Path) : Resolver where
  resolve := findFile files folder
  locations := files.locations
  resolve_mem base location found h := by
    simp only [findFile] at h
    split at h
    · cases h
    · split at h
      · next hr =>
        cases h
        exact files.read_mem _ _ hr
      · cases h

end Resolver

end SchemaShapes
