import SchemaShapes.Text.Cut

/-! The smallest parts of a TOML text: gaps within a line, comments and line ends. -/
namespace SchemaShapes.Toml

open Text (length_dropWhile_le)

/-- A reader takes a value off the front of a text, or finds that there is none. -/
abbrev Reader (α : Type) := List Char → Option (α × List Char)

/-- How deep values may be nested, and how many keys may be joined by dots. -/
def maxDepth : Nat := 80

/-- The white space that may stand within a line. -/
def isGap (c : Char) : Bool := c = ' ' || c = '\t'

/-- The control characters, none of which may stand in a comment or a string. The tab may. -/
def isControl (c : Char) : Bool := (c.toNat < 32 && c ≠ '\t') || c.toNat = 127

def skipGap (cs : List Char) : List Char := cs.dropWhile isGap

/-- A text without the comment that it begins with. -/
def skipComment : List Char → List Char
  | '#' :: cs => cs.dropWhile (!isControl ·)
  | cs => cs

/-- A text without the line end that it begins with. -/
def skipNewline? : List Char → Option (List Char)
  | '\n' :: cs => some cs
  | '\r' :: '\n' :: cs => some cs
  | _ => none

/-- What follows the end of a line. At the end of a text there is nothing. -/
def endLine (cs : List Char) : Option (List Char) :=
  match skipComment (skipGap cs) with
  | [] => some []
  | rest => skipNewline? rest

theorem length_skipNewline? {cs rest : List Char} (h : skipNewline? cs = some rest) :
    rest.length < cs.length := by
  unfold skipNewline? at h
  split at h
  · cases h
    simp
  · cases h
    simp only [List.length_cons]
    omega
  · cases h

/-- Skip gaps, line ends and comments. -/
def skipFiller (cs : List Char) : List Char :=
  match _hc : cs with
  | [] => []
  | c :: rest =>
    if isGap c then skipFiller rest
    else if c = '#' then skipFiller (rest.dropWhile (!isControl ·))
    else
      match _h : skipNewline? cs with
      | some rest => skipFiller rest
      | none => cs
termination_by cs.length
decreasing_by
  · simp
  · have := length_dropWhile_le (!isControl ·) rest
    simp only [List.length_cons]
    omega
  · have := length_skipNewline? _h
    simp_all

end SchemaShapes.Toml
