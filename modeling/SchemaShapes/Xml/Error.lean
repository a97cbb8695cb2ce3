/-! The causes for which a text is refused as XML. -/
namespace SchemaShapes.Xml

/-- Why a text cannot be read. -/
inductive Error where
  /-- A tag, a comment, a reference or another construct does not end. -/
  | unclosed
  /-- An exclamation mark opens something that is no comment, character data or doctype. -/
  | unknownMarkup
  /-- A doctype declares nothing. -/
  | emptyDoctype
  /-- An end tag does not close the element that is open. -/
  | unexpectedEnd (name : List Char)
  /-- A tag holds something that is no key with a quoted value. -/
  | invalidAttribute
  /-- A tag gives two values to one key. -/
  | repeatedAttribute
  /-- A reference stands for no character. -/
  | unknownReference
  /-- A declaration touches one of the two predeclared namespace bindings. -/
  | reservedNamespace
  deriving DecidableEq

end SchemaShapes.Xml
