import SchemaShapes.Name

/-! Why an element has no content tree: it cannot be selected, or it cannot be written out. -/
namespace SchemaShapes.Tree

/-- What a type is the type of. -/
inductive TypeOwner where
  | element (name : QName)
  | content (typeName : Option QName)
  deriving DecidableEq

def TypeOwner.text : TypeOwner → String
  | .element name => "declared type of element " ++ name.text
  | .content name =>
    "content type of complex type " ++ (name.map QName.text).getD "<anonymous>"

/-- Why a component is not written out. -/
inductive ConversionError where
  /-- An element or a group is made of itself. -/
  | recursive (name : QName)
  /-- A type makes no sense where it stands. -/
  | unknownTypeShape (owner : TypeOwner)
  /-- A group that is referred to has no compositor. -/
  | unknownGroupKind (name : QName)
  deriving DecidableEq

def ConversionError.message : ConversionError → String
  | .recursive name => "recursive schemas are not supported: element " ++ name.text
  | .unknownTypeShape owner => "unknown schema type: " ++ owner.text
  | .unknownGroupKind name => "unknown model group kind: group " ++ name.text

/-- What is asked of the element that is meant; what is not given may be anything. -/
structure Selector where
  name : Option String
  ns : Option String
  deriving DecidableEq

/-- Why no element is selected. -/
inductive SelectionError where
  /-- No element is as asked. -/
  | notFound (selector : Selector) (available : List QName)
  /-- Several elements are as asked. -/
  | ambiguous (candidates : List QName)
  /-- There are no elements. -/
  | noElements
  deriving DecidableEq

/-- Names with commas between them. -/
def namesText (names : List QName) : String := ", ".intercalate (names.map QName.text)

def SelectionError.message : SelectionError → String
  | .notFound selector available =>
    "global element not found: name: " ++ selector.name.getD "<any>" ++ " namespace: "
      ++ selector.ns.getD "<any>" ++ "; available elements: " ++ namesText available
  | .ambiguous candidates =>
    "schema has several global elements, element name must be specified: "
      ++ namesText candidates
  | .noElements => "schema has no global elements"

/-- Why a selected element has no content tree. -/
inductive Error where
  | selection (cause : SelectionError)
  | conversion (cause : ConversionError)
  deriving DecidableEq

def Error.message : Error → String
  | .selection cause => cause.message
  | .conversion cause => cause.message

end SchemaShapes.Tree
