/-! White space. A text may be trimmed of every character that Unicode calls white space, or
only of the four that XML knows; the two differ, for instance, on the no-break space. A byte order
mark before a text is no part of it either. -/
namespace SchemaShapes.Text

/-- The characters that have the Unicode property `White_Space`. -/
def isSpace (c : Char) : Bool :=
  let n := c.toNat
  (9 ≤ n && n ≤ 13) || n == 0x20 || n == 0x85 || n == 0xA0 || n == 0x1680 ||
    (0x2000 ≤ n && n ≤ 0x200A) || n == 0x2028 || n == 0x2029 || n == 0x202F || n == 0x205F ||
    n == 0x3000

/-- The white space of XML: space, tab, carriage return and line feed. -/
def isBlank (c : Char) : Bool :=
  c == ' ' || c == '\t' || c == '\r' || c == '\n'

/-- White space as it is written between tags: two more characters end a line there, the next-line
control and the line separator. -/
def isTextBlank (c : Char) : Bool := isBlank c || c == '\u0085' || c == '\u2028'

/-- Drop the characters of a class from the end only. -/
def stripEnd (p : Char → Bool) (cs : List Char) : List Char :=
  (cs.reverse.dropWhile p).reverse

/-- Drop the characters of a class from both ends. -/
def strip (p : Char → Bool) (cs : List Char) : List Char :=
  stripEnd p (cs.dropWhile p)

/-- A text without the white space around it. -/
def trim (s : String) : String :=
  String.ofList (strip isSpace s.toList)

/-- A text without the byte order mark that may open it. -/
def dropByteOrderMark : List Char → List Char
  | '\uFEFF' :: cs => cs
  | cs => cs

/-- Start a new line at a column. -/
def newLine (column : Nat) : String :=
  "\n" ++ String.ofList (List.replicate column ' ')

end SchemaShapes.Text
