import SchemaShapes.Catalog.Index
import SchemaShapes.Catalog.Node
import SchemaShapes.File.Path

/-! Catalogs: the declarations of several documents by their names. There is an index of each kind
of declarations, and what a name leads to there is what it means. -/
namespace SchemaShapes

open Schema

/-- A document that was loaded, with its location if it has one. -/
structure LoadedDocument where
  location : Option File.Path
  document : Document

structure Catalog where
  documents : List LoadedDocument

/-- The name of the type of any content. -/
def anyTypeName : QName := .xs "anyType"

/-- The type of any content: text and any elements. -/
def anyType : ComplexType where
  name := some anyTypeName
  mixed := true
  content := .particle (some (.group ⟨.sequence, .once, [.any .anyNumber (some "##any")]⟩))
  attributes := []

namespace Catalog

def elements (c : Catalog) : List Element := c.documents.flatMap (·.document.elements)

def complexTypes (c : Catalog) : List ComplexType :=
  c.documents.flatMap (·.document.complexTypes)

def simpleTypes (c : Catalog) : List SimpleType := c.documents.flatMap (·.document.simpleTypes)

def groups (c : Catalog) : List GroupDefinition := c.documents.flatMap (·.document.groups)

def attributeGroups (c : Catalog) : List AttributeGroup :=
  c.documents.flatMap (·.document.attributeGroups)

def attributes (c : Catalog) : List Attribute := c.documents.flatMap (·.document.attributes)

section

variable {α : Type} (c : Catalog) (declared : Document → List α)

/-- The index of a kind of declarations. -/
def index (name : α → Option QName) : Index :=
  .ofDocuments (declared ·.document) name c.documents

/-- What a name leads to: a position and the declaration there. -/
def lookup (name : α → Option QName) (q : QName) : Option (Position × α) := do
  let p ← (c.index declared name).get? q
  let d ← c.documents[p.document]?
  let a ← (declared d.document)[p.item]?
  return (p, a)

/-- The number of the declaration at a position, counted through all documents. -/
def number (p : Position) : Nat :=
  ((c.documents.take p.document).flatMap (declared ·.document)).length + p.item

/-- A declaration at a position, as a component. -/
def located (root : Nat → Root) : Position × α → Located α
  | (p, a) => ⟨.top (root (c.number declared p)), a⟩

end

def findElement (c : Catalog) (q : QName) : Option (Located Element) :=
  (c.lookup Document.elements (some ·.name) q).map (c.located Document.elements .element)

def findComplexType (c : Catalog) (q : QName) : Option (Located ComplexType) :=
  (c.lookup Document.complexTypes ComplexType.name q).map
    (c.located Document.complexTypes .complexType)

def findSimpleType (c : Catalog) (q : QName) : Option SimpleType :=
  (c.lookup Document.simpleTypes SimpleType.name q).map (·.2)

def findGroup (c : Catalog) (q : QName) : Option (Located GroupDefinition) :=
  (c.lookup Document.groups (some ·.name) q).map (c.located Document.groups .group)

def findAttributeGroup (c : Catalog) (q : QName) : Option AttributeGroup :=
  (c.lookup Document.attributeGroups (some ·.name) q).map (·.2)

def findAttribute (c : Catalog) (q : QName) : Option Attribute :=
  (c.lookup Document.attributes (some ·.name) q).map (·.2)

/-- The elements at the top level that stand where their names lead to. -/
def globalElements (c : Catalog) : List (Located Element) :=
  let index := c.index Document.elements (some ·.name)
  c.documents.zipIdx.flatMap fun (d, document) =>
    (d.document.elements.zipIdx.filter fun (e, item) =>
      index.get? e.name = some ⟨document, item⟩).map fun (e, item) =>
        c.located Document.elements .element (⟨document, item⟩, e)

/-- All nodes of the declarations at the top level. -/
def nodes (c : Catalog) : List Node :=
  anyType.nodes (.top .anyType)
    ++ c.elements.zipIdx.flatMap (fun (e, i) => e.nodes (.top (.element i)))
    ++ c.complexTypes.zipIdx.flatMap (fun (t, i) => t.nodes (.top (.complexType i)))
    ++ c.groups.zipIdx.flatMap (fun (g, i) => g.nodes (.top (.group i)))

/-- The places of all nodes. -/
def places (c : Catalog) : List Place := c.nodes.map Node.place

end Catalog

end SchemaShapes
