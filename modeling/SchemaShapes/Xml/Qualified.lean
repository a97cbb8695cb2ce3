import SchemaShapes.Xml.Event
import SchemaShapes.Xml.Reference
import SchemaShapes.Xml.Scope

/-! Qualified documents. Attributes that hold names of components are rewritten so that each name
carries its namespace in braces; names that no declaration in scope applies to stay as they are
written. Everything else is written again as it was read. -/
namespace SchemaShapes.Xml

open Text (isSpace strip)

/-- The keys of the attributes that hold names. -/
def nameKeys : List (List Char) := ["type".toList, "ref".toList, "base".toList]

/-- The name with its namespace in braces, if it is not written so already and its label is
bound. -/
def Scope.qualify? (scope : Scope) (name : List Char) : Option (List Char) :=
  match name with
  | '\x7b' :: _ => none
  | _ =>
    match scope.resolve name with
    | some (_, []) => none
    | some (uri, rest) => some ('\x7b' :: uri ++ '\x7d' :: rest)
    | none => none

/-- An attribute with its name qualified. -/
def qualifyAttribute (scope : Scope) (a : Attribute) : Except Error Attribute :=
  if a.key ∈ nameKeys then
    match unescape a.value with
    | none => .error .unknownReference
    | some value =>
      match scope.qualify? (strip isSpace value) with
      | some name => .ok { a with value := escape name }
      | none => .ok a
  else
    .ok a

/-- A tag with its names qualified and its attributes written alike, together with the scope
inside it. -/
def qualifyTag (scope : Scope) (tag : Tag) : Except Error (Tag × Scope) := do
  let attributes ← readAttributes tag.inside
  let inner ← scope.declare attributes
  let qualified ← attributes.mapM (qualifyAttribute inner)
  return (⟨tag.name, qualified.flatMap Attribute.render⟩, inner)

/-- Qualify events. The scopes are those inside the open elements, innermost first. -/
def qualifyEvents : List Scope → List Event → Except Error (List Event)
  | _, [] => .ok []
  | scopes, .start tag :: rest => do
    let (tag, inner) ← qualifyTag (scopes.headD []) tag
    return .start tag :: (← qualifyEvents (inner :: scopes) rest)
  | scopes, .empty tag :: rest => do
    let (tag, _) ← qualifyTag (scopes.headD []) tag
    return .empty tag :: (← qualifyEvents scopes rest)
  | scopes, .finish name :: rest => do
    return .finish name :: (← qualifyEvents scopes.tail rest)
  | scopes, e :: rest => do
    return e :: (← qualifyEvents scopes rest)

/-- The events of a document, unless it cannot be read to its end. -/
def Reading.all (r : Reading) : Except Error (List Event) :=
  match r.failure with
  | some e => .error e
  | none => .ok r.events

/-- The text of a qualified document. -/
def qualify (cs : List Char) : Except Error (List Char) := do
  let events ← (read cs).all
  let qualified ← qualifyEvents [] events
  return qualified.flatMap Event.render

end SchemaShapes.Xml
