import SchemaShapes.Xml.Attribute

/-! Namespace scopes. A scope lists the bindings of labels to namespaces that hold at a place of
a document, innermost first; the empty label is that of the default namespace. Namespaces are
taken as they are written: references in them are not replaced. -/
namespace SchemaShapes.Xml

open Text (cutAt)

structure Binding where
  label : List Char
  uri : List Char
  deriving DecidableEq

abbrev Scope := List Binding

/-- The namespace that the label `xml` is always bound to. -/
def xmlNamespace : List Char := "http://www.w3.org/XML/1998/namespace".toList

/-- The namespace that the label `xmlns` is always bound to. -/
def xmlnsNamespace : List Char := "http://www.w3.org/2000/xmlns/".toList

def xmlLabel : List Char := ['x', 'm', 'l']

def xmlnsLabel : List Char := ['x', 'm', 'l', 'n', 's']

/-- The label that an attribute binds, if it is a namespace declaration. -/
def declaredLabel? (key : List Char) : Option (List Char) :=
  if key = xmlnsLabel then some []
  else if xmlnsLabel.isPrefixOf key ∧ key[5]? = some ':' then some (key.drop 6)
  else none

/-- Whether a declaration touches a predeclared binding: another namespace for `xml`, any for
`xmlns`, and either of their namespaces for another label. Only the default namespace may be one
of the two. -/
def isReserved (key label uri : List Char) : Bool :=
  if key = xmlnsLabel then false
  else if label = xmlLabel then uri ≠ xmlNamespace
  else label = xmlnsLabel ∨ uri = xmlNamespace ∨ uri = xmlnsNamespace

/-- The scope inside a tag with the given attributes. -/
def Scope.declare (scope : Scope) : List Attribute → Except Error Scope
  | [] => .ok scope
  | a :: rest =>
    match declaredLabel? a.key with
    | none => declare scope rest
    | some label =>
      if isReserved a.key label a.value then .error .reservedNamespace
      else declare (⟨label, a.value⟩ :: scope) rest

/-- The namespace of a label. The innermost binding counts, and one to the empty text is none. -/
def Scope.lookup (scope : Scope) (label : List Char) : Option (List Char) :=
  match scope.find? (·.label = label) with
  | some binding => if binding.uri = [] then none else some binding.uri
  | none => none

/-- The namespace of a label that is written before a colon. -/
def Scope.namespaceOf (scope : Scope) (label : List Char) : Option (List Char) :=
  if label = xmlLabel then some xmlNamespace
  else if label = xmlnsLabel then some xmlnsNamespace
  else if label = [] then none
  else scope.lookup label

/-- The namespace and the local part of a written name. -/
def Scope.resolve (scope : Scope) (name : List Char) : Option (List Char × List Char) :=
  match cutAt [':'] name with
  | some (label, rest) => (scope.namespaceOf label).map (·, rest)
  | none => (scope.lookup []).map (·, name)

end SchemaShapes.Xml
