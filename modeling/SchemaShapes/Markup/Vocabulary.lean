import SchemaShapes.Occurs

/-! The words of schema documents: which elements may stand inside which, which of their
attributes matter, and the values that some attributes choose from. -/
namespace SchemaShapes.Markup

/-- Whether the names of local declarations belong to the target namespace. -/
inductive Form where
  | qualified
  | unqualified
  deriving DecidableEq

def Form.ofWord? (word : String) : Option Form :=
  if word = "qualified" then some .qualified
  else if word = "unqualified" then some .unqualified
  else none

/-- How an attribute may be used. -/
inductive Usage where
  | optional
  | required
  | prohibited
  deriving DecidableEq

def Usage.ofWord? (word : String) : Option Usage :=
  if word = "optional" then some .optional
  else if word = "required" then some .required
  else if word = "prohibited" then some .prohibited
  else none

/-- How a type is derived from its base. -/
inductive Method where
  | extension
  | restriction
  deriving DecidableEq

/-- How a document refers to another one: as a part of itself, or for another namespace. -/
inductive LinkKind where
  | inclusion
  | importing
  deriving DecidableEq

/-- The kinds of elements of a schema document. Those of the last kind have no bearing on shapes:
annotations, facets, keys and the like. -/
inductive Kind where
  | schema
  | link (kind : LinkKind)
  | element
  | attribute
  | attributeGroup
  | simpleType
  | complexType
  | simpleContent
  | complexContent
  | derivation (method : Method)
  | group
  | modelGroup (compositor : Compositor)
  | any
  | list
  | union
  | aside
  deriving DecidableEq

namespace Kind

/-- The kind of an element by its local name. -/
def ofName : String → Kind
  | "include" | "redefine" | "override" => .link .inclusion
  | "import" => .link .importing
  | "element" => .element
  | "attribute" => .attribute
  | "attributeGroup" => .attributeGroup
  | "simpleType" => .simpleType
  | "complexType" => .complexType
  | "simpleContent" => .simpleContent
  | "complexContent" => .complexContent
  | "extension" => .derivation .extension
  | "restriction" => .derivation .restriction
  | "group" => .group
  | "all" => .modelGroup .all
  | "choice" => .modelGroup .choice
  | "sequence" => .modelGroup .sequence
  | "any" => .any
  | "list" => .list
  | "union" => .union
  | _ => .aside

/-- The local names of what may stand directly inside an element. -/
def childNames : Kind → List String
  | .schema =>
    ["annotation", "include", "import", "redefine", "override", "element", "complexType",
     "simpleType", "group", "attributeGroup", "attribute", "notation", "defaultOpenContent"]
  | .element =>
    ["annotation", "complexType", "simpleType", "key", "keyref", "unique", "alternative"]
  | .attribute => ["annotation", "simpleType"]
  | .attributeGroup => ["annotation", "attribute", "attributeGroup", "anyAttribute"]
  | .simpleType => ["annotation", "restriction", "list", "union"]
  | .complexType =>
    ["annotation", "simpleContent", "complexContent", "group", "all", "choice", "sequence",
     "attribute", "attributeGroup", "anyAttribute", "assert", "openContent"]
  | .simpleContent | .complexContent => ["annotation", "extension", "restriction"]
  | .derivation _ =>
    ["annotation", "simpleType", "group", "all", "choice", "sequence", "attribute",
     "attributeGroup", "anyAttribute", "assert", "openContent", "enumeration", "pattern", "length",
     "minLength", "maxLength", "whiteSpace", "minInclusive", "maxInclusive", "minExclusive",
     "maxExclusive", "totalDigits", "fractionDigits", "assertion", "explicitTimezone"]
  | .group => ["annotation", "choice", "sequence", "all"]
  | .modelGroup _ => ["annotation", "element", "group", "choice", "sequence", "all", "any"]
  | .link _ | .any | .list | .union | .aside => []

/-- Whether anything may stand inside an element, because it is not looked at. -/
def isOpen : Kind → Bool
  | .link _ | .any | .list | .union | .aside => true
  | _ => false

/-- The kind of a child by its local name, if it may stand there. -/
def child? (k : Kind) (name : String) : Option Kind :=
  if name ∈ k.childNames then some (ofName name) else none

/-- The local names of the attributes that are read. -/
def keys : Kind → List String
  | .schema => ["targetNamespace", "elementFormDefault", "attributeFormDefault"]
  | .link _ => ["schemaLocation", "namespace"]
  | .element => ["name", "ref", "type", "nillable", "form", "minOccurs", "maxOccurs"]
  | .attribute => ["name", "ref", "type", "use", "form"]
  | .attributeGroup => ["name", "ref"]
  | .simpleType => ["name"]
  | .complexType => ["name", "mixed", "abstract"]
  | .simpleContent | .complexContent => ["mixed"]
  | .derivation _ => ["base"]
  | .group => ["name", "ref", "minOccurs", "maxOccurs"]
  | .modelGroup _ => ["minOccurs", "maxOccurs"]
  | .any => ["minOccurs", "maxOccurs", "namespace"]
  | .list | .union | .aside => []

end Kind

end SchemaShapes.Markup
