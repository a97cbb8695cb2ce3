import SchemaShapes.Markup.Vocabulary
import SchemaShapes.Occurs
import SchemaShapes.Xml.Node
import SchemaShapes.Xml.Scope

/-! Fields: the attributes of an element that are read. They are found by local names, whatever
label stands before them, and none may be given twice. -/
namespace SchemaShapes.Markup

open Text (cutAt isBlank strip)
open Xml (Tag declaredLabel? readAttributes unescape)

/-- The part of a written name after its first colon, or all of it. -/
def localName (name : List Char) : List Char :=
  match cutAt [':'] name with
  | some (_, rest) => rest
  | none => name

/-- The local name that an attribute is found by. Namespace declarations and attributes of the
`xml` namespace are not found at all. -/
def fieldName? (key : List Char) : Option String :=
  if (declaredLabel? key).isSome ∨ "xml:".toList.isPrefixOf key then none
  else some (String.ofList (localName key))

/-- The fields of an element with their values as they are written. -/
abbrev Fields := List (String × List Char)

/-- The fields of a tag among the given names. -/
def readFields (keys : List String) (tag : Tag) : Option Fields :=
  match readAttributes tag.inside with
  | .error _ => none
  | .ok attributes =>
    let fields := attributes.filterMap fun a =>
      match fieldName? a.key with
      | some name => if name ∈ keys then some (name, a.value) else none
      | none => none
    if (fields.map (·.1)).Nodup then some fields else none

namespace Fields

/-- Read a field, if it is given. -/
def read {α : Type} (fields : Fields) (key : String) (value : List Char → Option α) :
    Option (Option α) :=
  match fields.lookup key with
  | none => some none
  | some raw => (value raw).map some

/-- A text, its references replaced. -/
def text (fields : Fields) (key : String) : Option (Option String) :=
  fields.read key fun raw => (unescape raw).map String.ofList

/-- One of the words for true and false, white space around it aside. -/
def boolean (fields : Fields) (key : String) : Option (Option Bool) :=
  fields.read key fun raw => do
    let word := String.ofList (strip isBlank (← unescape raw))
    if word = "true" ∨ word = "1" then some true
    else if word = "false" ∨ word = "0" then some false
    else none

/-- A word that chooses a value; nothing may stand around it. -/
def word {α : Type} (fields : Fields) (key : String) (ofWord? : String → Option α) :
    Option (Option α) :=
  fields.read key fun raw => do ofWord? (String.ofList (← unescape raw))

/-- A count, white space around it aside. References are not replaced here. -/
def count (fields : Fields) (key : String) : Option (Option UInt64) :=
  fields.read key fun raw => Text.readUInt64 (strip isBlank raw)

/-- An upper occurrence bound. -/
def bound (fields : Fields) (key : String) : Option (Option MaxOccurs) :=
  fields.read key fun raw => do (MaxOccurs.parse (String.ofList (← unescape raw))).toOption

/-- The occurrence bounds of a particle. -/
def occurs (fields : Fields) : Option Occurs := do
  return .ofAttributes (← fields.count "minOccurs") (← fields.bound "maxOccurs")

end Fields

end SchemaShapes.Markup
