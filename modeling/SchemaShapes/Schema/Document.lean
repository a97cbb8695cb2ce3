import SchemaShapes.Schema.Declaration
import SchemaShapes.Xml.Qualified

/-! Schema documents of texts. A text is read as XML, its names are qualified, the result is read
again as markup of a schema, and its components are declared; so a text that is no XML is refused
as such whatever else is wrong with it, and one with other markup before its declarations count. -/
namespace SchemaShapes.Schema

open Markup (Component)

/-- Refuse a type at the top level that has no name. -/
def requireName (kind : ComponentKind) (name : Option String) : Declared Unit :=
  match name with
  | some _ => .ok ()
  | none => .error (.within kind (shownName none) (.nameOrRefRequired kind))

/-- Declare the items of a document. -/
def declareItems (ctx : Context) : List Component → Declared Document
  | [] => .ok (.empty ctx.targetNamespace)
  | .link kind location ns :: rest => do
    let d ← declareItems ctx rest
    return { d with links := ⟨kind, location, ns⟩ :: d.links }
  | .element head items :: rest => do
    let e ← declareGlobalElement ctx head items
    let d ← declareItems ctx rest
    return { d with elements := e :: d.elements }
  | .complexType name mixed items :: rest => do
    let t ← declareComplexType ctx name mixed items
    requireName .complexType name
    let d ← declareItems ctx rest
    return { d with complexTypes := t :: d.complexTypes }
  | .simpleType name items :: rest => do
    let t ← declareSimpleType ctx name items
    requireName .simpleType name
    let d ← declareItems ctx rest
    return { d with simpleTypes := t :: d.simpleTypes }
  | .group name _ _ items :: rest => do
    let g ← declareGroup ctx name items
    let d ← declareItems ctx rest
    return { d with groups := g :: d.groups }
  | .attributeGroup name _ items :: rest => do
    let g ← declareAttributeGroup ctx name items
    let d ← declareItems ctx rest
    return { d with attributeGroups := g :: d.attributeGroups }
  | .attribute head items :: rest => do
    let a ← declareGlobalAttribute ctx head items
    let d ← declareItems ctx rest
    return { d with attributes := a :: d.attributes }
  | _ :: rest => declareItems ctx rest

/-- The context of a document. A document without a target namespace of its own takes on the one
of the document that includes it. -/
def Context.ofDocument (m : Markup.Document) (includer : Option String) : Context :=
  let own := m.targetNamespace.filter (· ≠ "")
  { targetNamespace := own.or includer
    elementForm := m.elementForm.getD .unqualified
    attributeForm := m.attributeForm.getD .unqualified
    chameleon := own.isNone && includer.isSome }

/-- Declare the components of a written document. -/
def Document.declare (m : Markup.Document) (includer : Option String) : Declared Document :=
  declareItems (.ofDocument m includer) m.items

/-- The document of a text. -/
def Document.parse (text : String) (includer : Option String) : Except DocumentError Document :=
  match Xml.qualify text.toList with
  | .error e => .error (.unreadable e)
  | .ok qualified =>
    match Markup.Document.read? qualified with
    | none => .error .unrecognized
    | some m => (Document.declare m includer).mapError .invalid

end SchemaShapes.Schema
