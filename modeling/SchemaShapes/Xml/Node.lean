import SchemaShapes.Xml.Event
import SchemaShapes.Xml.Reference

/-! Elements with what they contain. Only the first element of a document counts: before it there
may be nothing but blank text, and what follows its end is not looked at. Comments and the like
are left out, and character data is text. -/
namespace SchemaShapes.Xml

open Text (isTextBlank)

inductive Node where
  | text (content : List Char)
  | reference (name : List Char)
  | element (tag : Tag) (children : List Node)

/-- Whether a node is text of white space only, once references are replaced. The line ends that
only text has count as they are written, not through a reference. -/
def Node.isBlank : Node → Bool
  | .text content => content.all isTextBlank
  | .reference name => (resolveReference name).any Text.isBlank
  | .element _ _ => false

/-- Whether a node is text, other than a reference that stands for nothing. -/
def Node.isReadable : Node → Bool
  | .text _ => true
  | .reference name => (resolveReference name).isSome
  | .element _ _ => false

/-- Whether a node is an element. -/
def Node.isElement : Node → Bool
  | .element _ _ => true
  | _ => false

/-- The text of an event, if it is one of text. -/
def Event.text? : Event → Option Node
  | .text content => some (.text content)
  | .cdata content => some (.text content)
  | .reference name => some (.reference name)
  | _ => none

/-- An element that is open: its tag and its children so far, the last one first. -/
structure OpenElement where
  tag : Tag
  children : List Node

/-- Add a child to an open element. -/
def OpenElement.add (o : OpenElement) (n : Node) : OpenElement :=
  { o with children := n :: o.children }

/-- The element that an open element becomes at its end tag. -/
def OpenElement.close (o : OpenElement) : Node := .element o.tag o.children.reverse

/-- The first element of a sequence of events, the innermost open element coming first. -/
def rootFrom : List OpenElement → List Event → Option Node
  | _, [] => none
  | [], .start tag :: rest => rootFrom [⟨tag, []⟩] rest
  | [], .empty tag :: _ => some (.element tag [])
  | [], .finish _ :: _ => none
  | [], e :: rest =>
    match e.text? with
    | some n => if n.isBlank then rootFrom [] rest else none
    | none => rootFrom [] rest
  | o :: outer, .start tag :: rest => rootFrom (⟨tag, []⟩ :: o :: outer) rest
  | o :: outer, .empty tag :: rest => rootFrom (o.add (.element tag []) :: outer) rest
  | [o], .finish _ :: _ => some o.close
  | o :: p :: outer, .finish _ :: rest => rootFrom (p.add o.close :: outer) rest
  | o :: outer, e :: rest =>
    match e.text? with
    | some n => rootFrom (o.add n :: outer) rest
    | none => rootFrom (o :: outer) rest

/-- The first element of a document. -/
def readRoot (cs : List Char) : Option Node := rootFrom [] (read cs).events

end SchemaShapes.Xml
