import SchemaShapes.File.Path
import SchemaShapes.Toml.Document
import SchemaShapes.Tree.Error

/-! Manifests: lists of schema files, each with the element that its shape is wanted of. A manifest
is a TOML document with one table for each file. -/
namespace SchemaShapes

open File (Path)
open Toml (Item Table)

/-- A schema file, the folder that its locations are seen from, and the element that is meant. -/
structure ManifestEntry where
  file : Path
  folder : Option Path
  element : Option String
  ns : Option String
  deriving DecidableEq

def ManifestEntry.selector (e : ManifestEntry) : Tree.Selector := ⟨e.element, e.ns⟩

/-- The entry as it is seen from a folder. -/
def ManifestEntry.relativeTo (dir : Path) (e : ManifestEntry) : ManifestEntry :=
  { e with file := dir.join e.file, folder := e.folder.map dir.join }

/-- The text that an item is. -/
def Toml.Item.text? : Item → Option String
  | .text s => some s
  | _ => none

/-- The text under a key, if there is anything; anything else is refused. -/
def Toml.Table.textAt? (t : Table) (key : String) : Option (Option String) :=
  match t.get? key with
  | none => some none
  | some item => item.text?.map some

namespace ManifestEntry

/-- The entry that a table describes. It has to name a file; keys without a meaning are ignored, but
no number may be out of range. -/
def ofTable (t : Table) : Option ManifestEntry := do
  if !t.isInRange then none
  let some file ← t.textAt? "file" | none
  let folder ← t.textAt? "resolution-folder"
  let element ← t.textAt? "element"
  let ns ← t.textAt? "namespace"
  return ⟨⟨file⟩, folder.map (⟨·⟩), element, ns⟩

/-- The entry that an item describes: a table, or the four texts in order. What an array holds
behind them is not looked at. -/
def ofItem : Item → Option ManifestEntry
  | .table t => ofTable t
  | .array (file :: folder :: element :: ns :: _) => do
    return ⟨⟨← file.text?⟩, some ⟨← folder.text?⟩, some (← element.text?), some (← ns.text?)⟩
  | _ => none

end ManifestEntry

/-- The entries of a manifest. Its other keys are ignored, but no number may be out of range. -/
def Manifest.parse (text : String) : Option (List ManifestEntry) := do
  let root ← Table.parse text
  if !root.entries.all fun (key, item) => key = "schemas" || item.isInRange then none
  match ← root.get? "schemas" with
  | .array items => items.mapM ManifestEntry.ofItem
  | .tables tables => tables.reverse.mapM ManifestEntry.ofTable
  | _ => none

end SchemaShapes
