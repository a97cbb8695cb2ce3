import SchemaShapes.Text.Cut
import SchemaShapes.Text.Digit

/-! References: a name or a number between an ampersand and a semicolon that stands for a
character. Five names are known; a number is decimal or, after an `x`, hexadecimal. -/
namespace SchemaShapes.Xml

open Text (length_dropWhile_le readNumber)

/-- The character of a code point other than zero. -/
def charOfCode? (n : Nat) : Option Char :=
  if n ≠ 0 ∧ n.isValidChar then some (Char.ofNat n) else none

/-- The character that a reference stands for, by what is written between its marks. -/
def resolveReference (name : List Char) : Option Char :=
  match name with
  | '#' :: 'x' :: digits => (readNumber 16 digits).bind charOfCode?
  | '#' :: digits => (readNumber 10 digits).bind charOfCode?
  | _ =>
    if name = ['l', 't'] then some '<'
    else if name = ['g', 't'] then some '>'
    else if name = ['a', 'm', 'p'] then some '&'
    else if name = ['a', 'p', 'o', 's'] then some '\''
    else if name = ['q', 'u', 'o', 't'] then some '"'
    else none

/-- Whether a character may stand inside a reference in an attribute value. -/
def inReference (c : Char) : Bool := c != '&' && c != ';'

/-- Replace the references of an attribute value by their characters. -/
def unescape : List Char → Option (List Char)
  | [] => some []
  | '&' :: cs =>
    match _h : cs.dropWhile inReference with
    | ';' :: rest => do
      let c ← resolveReference (cs.takeWhile inReference)
      let tail ← unescape rest
      return c :: tail
    | _ => none
  | c :: cs => (unescape cs).map (c :: ·)
termination_by cs => cs.length
decreasing_by
  · have := length_dropWhile_le inReference cs
    simp only [_h, List.length_cons] at this ⊢
    omega
  · simp

/-- How a character is written inside a quoted attribute value. -/
def escapeChar : Char → List Char
  | '<' => ['&', 'l', 't', ';']
  | '>' => ['&', 'g', 't', ';']
  | '&' => ['&', 'a', 'm', 'p', ';']
  | '\'' => ['&', 'a', 'p', 'o', 's', ';']
  | '"' => ['&', 'q', 'u', 'o', 't', ';']
  | c => [c]

/-- The text that is read back, inside quotes, as the given one. -/
def escape (cs : List Char) : List Char := cs.flatMap escapeChar

end SchemaShapes.Xml
