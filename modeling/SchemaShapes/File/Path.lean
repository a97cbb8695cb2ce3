import SchemaShapes.Text.Split

/-! Paths of files. A path keeps the text that it was written with; two texts are the same path if
they have the same steps, so repeated slashes and dots between them make no difference. -/
namespace SchemaShapes.File

open Text (split unsplit)

structure Path where
  text : String
  deriving DecidableEq

/-- A step of a path: to the root, to the place where the path starts, up, or to an entry. -/
inductive Step where
  | root
  | here
  | up
  | entry (name : List Char)
  deriving DecidableEq

namespace Path

/-- The parts of a path between slashes. -/
def parts (p : Path) : List (List Char) := split '/' p.text.toList

/-- The step that a part stands for, if it leads anywhere. -/
def stepOf (part : List Char) : Option Step :=
  if part = [] ∨ part = ['.'] then none
  else if part = ['.', '.'] then some .up
  else some (.entry part)

/-- What a path begins with, before any step to an entry or up: the root, the place where it
starts if a dot says so, or nothing; and the parts after that. -/
def head : List (List Char) → Option Step × List (List Char)
  | [] :: part :: parts => (some .root, part :: parts)
  | ['.'] :: parts => (some .here, parts)
  | parts => (none, parts)

/-- The steps of a path. -/
def steps (p : Path) : List Step :=
  let (first, parts) := head p.parts
  first.toList ++ parts.filterMap stepOf

/-- Whether two texts are the same path. -/
def same (p q : Path) : Bool := p.steps = q.steps

/-- Whether a path starts at the root. -/
def isAbsolute (p : Path) : Bool := p.text.toList.head? = some '/'

/-- A path as it is seen from another one. One that starts at the root stays what it is. -/
def join (p q : Path) : Path :=
  if q.isAbsolute ∨ p.text = "" then q
  else if p.text.toList.getLast? = some '/' then ⟨p.text ++ q.text⟩
  else ⟨p.text ++ "/" ++ q.text⟩

/-- The parts up to the last one that leads anywhere. -/
def trimParts (parts : List (List Char)) : List (List Char) :=
  (parts.reverse.dropWhile (stepOf · = none)).reverse

/-- The text of a path with the given beginning and parts. -/
def assemble : Option Step → List (List Char) → Path
  | some .root, parts => ⟨String.ofList ('/' :: unsplit '/' parts)⟩
  | some .here, parts => ⟨String.ofList (unsplit '/' (['.'] :: parts))⟩
  | _, parts => ⟨String.ofList (unsplit '/' parts)⟩

/-- The path without its last step. The root has no such path, nor has the empty text. -/
def parent (p : Path) : Option Path :=
  let (first, parts) := head p.parts
  match trimParts parts with
  | [] => if first = some .here then some ⟨""⟩ else none
  | part :: rest => some (assemble first (trimParts (part :: rest).dropLast))

end Path

end SchemaShapes.File
