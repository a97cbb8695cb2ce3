import SchemaShapes.Catalog.Fault
import SchemaShapes.Schema.Error

/-! Why there is no schema set: a document of it cannot be had, or its documents do not go
together. -/
namespace SchemaShapes

open File (Path)

inductive SchemaSetError where
  /-- A file cannot be read. -/
  | unreadable (location : Path)
  /-- A location is of a kind that cannot be handled. -/
  | unsupportedLocation (location : String)
  /-- The document at a location is refused. -/
  | document (location : Option Path) (cause : Schema.DocumentError)
  /-- The documents do not go together. -/
  | faulty (cause : Fault)
  deriving DecidableEq

/-- The location of a document in messages. -/
def shownLocation (location : Option Path) : String := (location.map Path.text).getD "<root>"

def SchemaSetError.message : SchemaSetError → String
  | .unreadable location => "input/output error: schema location: " ++ location.text
  | .unsupportedLocation location => "unsupported schema location: " ++ location
  | .document location cause =>
    "XSD validation error: schema location: " ++ shownLocation location ++ ": " ++ cause.message
  | .faulty cause => cause.message

end SchemaShapes
