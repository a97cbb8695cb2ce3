import SchemaShapes.Shape
import SchemaShapes.Text.Blank

/-! The outline of a shape: an indented text with one line for a primitive and, for a record or a
collection, an opening line, the members two columns further in, and a closing line. -/
namespace SchemaShapes

open Text (newLine)

/-- The mark of a value that may be missing. -/
def optionalMark (optional : Bool) : String := if optional then "?" else ""

/-- What stands before the shape of a property. -/
def Property.label (p : Property) : String :=
  if p.isBody then "<body>: " else p.name ++ ": "

/-- What stands before the shape of a branch. -/
def Branch.label (b : Branch) : String :=
  b.tag.niceName ++ " (" ++ b.multiplicity.text ++ "): "

mutual

/-- The outline of a shape whose first line has been begun at a column. -/
def Shape.outlineAt (column : Nat) : Shape → String
  | .top => "top"
  | .primitive kind measure optional =>
    kind.text ++ optionalMark optional ++
      (match measure with
        | some unit => "<" ++ unit ++ ">"
        | none => "")
  | .record name properties optional =>
    "record " ++ name.getD "<anonymous>" ++ optionalMark optional ++ " \x7b" ++
      propertiesOutline (column + 2) properties ++ newLine column ++ "\x7d"
  | .collection branches =>
    "collection [" ++ branchesOutline (column + 2) branches ++ newLine column ++ "]"

/-- The outlines of properties, each on a new line. -/
def propertiesOutline (column : Nat) : List Property → String
  | [] => ""
  | ⟨name, shape⟩ :: rest =>
    newLine column ++ (⟨name, shape⟩ : Property).label ++ shape.outlineAt column ++
      propertiesOutline column rest

/-- The outlines of branches, each on a new line. -/
def branchesOutline (column : Nat) : List Branch → String
  | [] => ""
  | ⟨tag, multiplicity, shape⟩ :: rest =>
    newLine column ++ (⟨tag, multiplicity, shape⟩ : Branch).label ++ shape.outlineAt column ++
      branchesOutline column rest

end

/-- The outline of a shape. -/
def Shape.outline (s : Shape) : String := s.outlineAt 0

end SchemaShapes
