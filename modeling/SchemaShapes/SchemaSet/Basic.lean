import SchemaShapes.Inference
import SchemaShapes.SchemaSet.Loading
import SchemaShapes.Tree.Conversion

/-! Schema sets: catalogs without faults. Whatever a component of a schema set refers to is there,
and no type or attribute group leads back to itself. -/
namespace SchemaShapes

open File (Path)

structure SchemaSet extends Catalog where
  fault_eq_none : toCatalog.fault = none

namespace SchemaSet

/-- The set of some documents. -/
def ofDocuments (documents : List LoadedDocument) : Except SchemaSetError SchemaSet :=
  match h : (Catalog.mk documents).fault with
  | some fault => .error (.faulty fault)
  | none => .ok ⟨⟨documents⟩, h⟩

/-- The set of the documents that a text leads to, which may stand at a location. -/
def ofRoot (r : Resolver) (location : Option Path) (text : String) :
    Except SchemaSetError SchemaSet := do
  ofDocuments (← loadDocuments r location text)

/-- The set of the documents that a text leads to. -/
def compile (text : String) (r : Resolver) : Except SchemaSetError SchemaSet :=
  ofRoot r none text

/-- The set of the documents that a file leads to. The locations in it are seen from a given
folder or, without one, from the folder of the file. -/
def load (files : File.System) (path : Path) (folder : Option Path) :
    Except SchemaSetError SchemaSet :=
  match files.read path with
  | none => .error (.unreadable path)
  | some found =>
    let folder := (folder.or path.parent).getD ⟨""⟩
    ofRoot (.ofFiles files (some folder)) (some found.location) found.text

/-- The shape of the element that a selector asks for. -/
def infer (s : SchemaSet) (selector : Tree.Selector) : Except Tree.Error Shape :=
  (s.tree selector).map Tree.Element.shape

end SchemaSet

end SchemaShapes
