import SchemaShapes.Markup.Fields

/-! Components as they are written: the elements of a schema document that have a bearing on
shapes, with the values of their fields. Names of other components are still texts. -/
namespace SchemaShapes.Markup

open Xml (Node Tag)

/-- The fields of an element declaration or reference. -/
structure ElementHead where
  name : Option String
  ref : Option String
  type : Option String
  nillable : Option Bool
  form : Option Form
  occurs : Occurs

/-- The fields of an attribute declaration or reference. -/
structure AttributeHead where
  name : Option String
  ref : Option String
  type : Option String
  usage : Option Usage
  form : Option Form

inductive Component where
  | link (kind : LinkKind) (location : Option String) (ns : Option String)
  | element (head : ElementHead) (items : List Component)
  | attribute (head : AttributeHead) (items : List Component)
  | attributeGroup (name ref : Option String) (items : List Component)
  | simpleType (name : Option String) (items : List Component)
  | complexType (name : Option String) (mixed : Option Bool) (items : List Component)
  | simpleContent (items : List Component)
  | complexContent (mixed : Option Bool) (items : List Component)
  | derivation (method : Method) (base : Option String) (items : List Component)
  | group (name ref : Option String) (occurs : Occurs) (items : List Component)
  | modelGroup (compositor : Compositor) (occurs : Occurs) (items : List Component)
  | any (occurs : Occurs) (ns : Option String)
  | list
  | union
  | aside

/-- A schema document as it is written. -/
structure Document where
  targetNamespace : Option String
  elementForm : Option Form
  attributeForm : Option Form
  items : List Component

/-- Whether what stands inside an element that is not looked at can be read: the text directly
inside it and the text that each child begins with refer to nothing unknown. -/
def isPassable (children : List Node) : Bool :=
  children.all fun
    | .element _ inner => (inner.takeWhile (!·.isElement)).all Node.isReadable
    | n => n.isReadable

/-- The component of an element of a kind, from its fields and from what stands inside it. -/
def Component.make (k : Kind) (fields : Fields) (items : List Component) : Option Component := do
  match k with
  | .schema => none
  | .link kind => return .link kind (← fields.text "schemaLocation") (← fields.text "namespace")
  | .element =>
    let head : ElementHead :=
      { name := ← fields.text "name"
        ref := ← fields.text "ref"
        type := ← fields.text "type"
        nillable := ← fields.boolean "nillable"
        form := ← fields.word "form" Form.ofWord?
        occurs := ← fields.occurs }
    return .element head items
  | .attribute =>
    let head : AttributeHead :=
      { name := ← fields.text "name"
        ref := ← fields.text "ref"
        type := ← fields.text "type"
        usage := ← fields.word "use" Usage.ofWord?
        form := ← fields.word "form" Form.ofWord? }
    return .attribute head items
  | .attributeGroup => return .attributeGroup (← fields.text "name") (← fields.text "ref") items
  | .simpleType => return .simpleType (← fields.text "name") items
  | .complexType =>
    let _ ← fields.boolean "abstract"
    return .complexType (← fields.text "name") (← fields.boolean "mixed") items
  | .simpleContent =>
    let _ ← fields.boolean "mixed"
    return .simpleContent items
  | .complexContent => return .complexContent (← fields.boolean "mixed") items
  | .derivation method => return .derivation method (← fields.text "base") items
  | .group =>
    return .group (← fields.text "name") (← fields.text "ref") (← fields.occurs) items
  | .modelGroup compositor => return .modelGroup compositor (← fields.occurs) items
  | .any => return .any (← fields.occurs) (← fields.text "namespace")
  | .list => return .list
  | .union => return .union
  | .aside => return .aside

/-- The kind of a child of an element, if it is an element that may stand there. -/
def Kind.childKind? (k : Kind) : Node → Option Kind
  | .element tag _ => k.child? (String.ofList (localName tag.name))
  | _ => none

mutual

/-- The component that an element of a kind is. -/
def Component.ofNode? (k : Kind) : Node → Option Component
  | .element tag children => do
    let fields ← readFields k.keys tag
    if k.isOpen then
      if isPassable children then Component.make k fields [] else none
    else
      Component.make k fields (← itemsOf? k children)
  | _ => none

/-- The components inside an element of a kind. Between them there may be only blank text. -/
def itemsOf? (k : Kind) : List Node → Option (List Component)
  | [] => some []
  | n :: rest => do
    if n.isElement then
      let kind ← k.childKind? n
      let c ← Component.ofNode? kind n
      return c :: (← itemsOf? k rest)
    else if n.isBlank then
      itemsOf? k rest
    else
      none

end

/-- The document whose first element is the given one, whatever that is called. -/
def Document.ofNode? : Node → Option Document
  | .element tag children => do
    let fields ← readFields Kind.schema.keys tag
    let items ← itemsOf? .schema children
    return {
      targetNamespace := ← fields.text "targetNamespace"
      elementForm := ← fields.word "elementFormDefault" Form.ofWord?
      attributeForm := ← fields.word "attributeFormDefault" Form.ofWord?
      items }
  | _ => none

/-- Read the document of a text. -/
def Document.read? (cs : List Char) : Option Document :=
  (Xml.readRoot cs).bind Document.ofNode?

end SchemaShapes.Markup
