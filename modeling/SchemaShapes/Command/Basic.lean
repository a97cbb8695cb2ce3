import SchemaShapes.Manifest
import SchemaShapes.SchemaSet.Basic
import SchemaShapes.Shape.Outline
import SchemaShapes.Tree.Listing

/-! Commands: what is asked of the files of a system. The shape or the content tree of an element
is shown, the elements of a schema are listed, or the shapes of all entries of a manifest are
shown. -/
namespace SchemaShapes

open File (Path)

/-- A schema file, the folder that its locations are seen from, and the element that is meant. -/
structure SchemaInput where
  file : Path
  folder : Option Path
  selector : Tree.Selector

inductive Command where
  | infer (input : SchemaInput)
  | schema (input : SchemaInput)
  | elements (file : Path) (folder : Option Path)
  | manifest (file : Path)

inductive CommandError where
  | schemaSet (cause : SchemaSetError)
  | tree (cause : Tree.Error)
  | unreadableManifest (file : Path)
  | invalidManifest (file : Path)
  deriving DecidableEq

namespace CommandError

def message : CommandError → String
  | .schemaSet cause => "schema set error: " ++ cause.message
  | .tree cause => "schema parse error: " ++ cause.message
  | .unreadableManifest file => "manifest error: file: " ++ file.text ++ ": input/output error"
  | .invalidManifest file => "manifest error: file: " ++ file.text ++ ": toml parse error"

/-- The path that leads to no file, if that is the error. -/
def missing? : CommandError → Option Path
  | .schemaSet (.unreadable location) => some location
  | .unreadableManifest file => some file
  | _ => none

end CommandError

/-- The outcome of a command. -/
abbrev Outcome := Except CommandError

/-- The schema set of a file. -/
def loadSet (files : File.System) (file : Path) (folder : Option Path) : Outcome SchemaSet :=
  (SchemaSet.load files file folder).mapError .schemaSet

/-- The entries of a manifest file, as they are seen from its folder. -/
def readManifest (files : File.System) (file : Path) : Outcome (List ManifestEntry) :=
  match files.read file with
  | none => .error (.unreadableManifest file)
  | some found =>
    match Manifest.parse found.text with
    | none => .error (.invalidManifest file)
    | some entries =>
      match file.parent with
      | some dir => .ok (entries.map (·.relativeTo dir))
      | none => .ok entries

/-- Run a command. The texts that it shows come in order; the first error ends it. -/
def Command.run (files : File.System) : Command → Outcome (List String)
  | .infer input => do
    let set ← loadSet files input.file input.folder
    let shape ← (set.infer input.selector).mapError .tree
    return [shape.outline]
  | .schema input => do
    let set ← loadSet files input.file input.folder
    let tree ← (set.tree input.selector).mapError .tree
    return [tree.listing.text]
  | .elements file folder => do
    let set ← loadSet files file folder
    return set.globalElements.map (·.value.name.text)
  | .manifest file => do
    let entries ← readManifest files file
    entries.mapM fun e => do
      let set ← loadSet files e.file e.folder
      let shape ← (set.infer e.selector).mapError .tree
      return e.file.text ++ ":\n" ++ shape.outline

end SchemaShapes
