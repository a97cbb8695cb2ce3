import SchemaShapes.Xml.Error

/-! Why a schema document is refused. Its text may be no XML, its markup may be none of a schema,
or a declaration in it may be wrong; a wrong declaration is named together with all the named
declarations around it. -/
namespace SchemaShapes.Schema

/-- The kinds of components that errors are attributed to. -/
inductive ComponentKind where
  | element
  | attribute
  | group
  | attributeGroup
  | complexType
  | simpleType
  deriving DecidableEq

namespace ComponentKind

/-- The word that a kind is written with in documents. -/
def keyword : ComponentKind → String
  | .element => "element"
  | .attribute => "attribute"
  | .group => "group"
  | .attributeGroup => "attributeGroup"
  | .complexType => "complexType"
  | .simpleType => "simpleType"

/-- The name of a kind in messages. -/
def title : ComponentKind → String
  | .element => "element"
  | .attribute => "attribute"
  | .group => "group"
  | .attributeGroup => "attribute group"
  | .complexType => "complex type"
  | .simpleType => "simple type"

end ComponentKind

inductive DeclarationError where
  /-- The label before a name is not bound. -/
  | undeclaredPrefix (name : String)
  /-- A name is not of the form that names have. -/
  | invalidName (name : String)
  /-- A component has neither a name nor a reference where it needs one. -/
  | nameOrRefRequired (kind : ComponentKind)
  /-- An element lacks something that it cannot do without. -/
  | missingAttribute (owner key : String)
  /-- A declaration is wrong for something inside it. -/
  | within (kind : ComponentKind) (name : String) (cause : DeclarationError)
  deriving DecidableEq

def DeclarationError.message : DeclarationError → String
  | .undeclaredPrefix name => "undeclared namespace prefix in " ++ name
  | .invalidName name => "invalid qualified name: " ++ name
  | .nameOrRefRequired kind => kind.keyword ++ ": either name or ref is required"
  | .missingAttribute owner key => owner ++ ": attribute " ++ key ++ " is required"
  | .within kind name cause => kind.title ++ " " ++ name ++ ": " ++ cause.message

inductive DocumentError where
  /-- The text is no XML. -/
  | unreadable (cause : Xml.Error)
  /-- The markup is none of a schema document. -/
  | unrecognized
  /-- A declaration is wrong. -/
  | invalid (cause : DeclarationError)
  deriving DecidableEq

def DocumentError.message : DocumentError → String
  | .unreadable _ => "the text is no XML"
  | .unrecognized => "the markup is none of a schema document"
  | .invalid cause => cause.message

end SchemaShapes.Schema
