import SchemaShapes.Text.Blank

/-! Listings: nested terms set out one entry to a line. A listing is a word, or a block of entries
four columns further in than its first and its last line, every entry of which ends in a comma. -/
namespace SchemaShapes

open Text (newLine)

mutual

inductive Listing where
  | word (text : String)
  | block (opening : String) (entries : List Entry) (closing : String)

/-- An entry of a block, with what stands before it on its line. -/
structure Entry where
  label : String
  body : Listing

end

mutual

/-- The text of a listing whose first line has been begun at a column. -/
def Listing.textAt (column : Nat) : Listing → String
  | .word text => text
  | .block opening entries closing =>
    opening ++ entriesText (column + 4) entries ++ newLine column ++ closing

/-- The text of an entry, on a new line. -/
def Entry.textAt (column : Nat) : Entry → String
  | ⟨label, body⟩ => newLine column ++ label ++ body.textAt column ++ ","

/-- The text of the entries of a block. -/
def entriesText (column : Nat) : List Entry → String
  | [] => ""
  | e :: rest => e.textAt column ++ entriesText column rest

end

/-- An entry with a name. -/
def Entry.field (name : String) (body : Listing) : Entry := ⟨name ++ ": ", body⟩

/-- An entry without a name. -/
def Entry.term (body : Listing) : Entry := ⟨"", body⟩

namespace Listing

/-- The text of a listing. -/
def text (l : Listing) : String := l.textAt 0

/-- A term with named parts. -/
def record (name : String) (entries : List Entry) : Listing :=
  .block (name ++ " \x7b") entries "\x7d"

/-- A term with parts in order. -/
def apply (name : String) (terms : List Listing) : Listing :=
  .block (name ++ "(") (terms.map Entry.term) ")"

/-- A list of terms. Without terms it is a word. -/
def list : List Listing → Listing
  | [] => .word "[]"
  | terms => .block "[" (terms.map Entry.term) "]"

/-- A term that may be missing. -/
def option : Option Listing → Listing
  | none => .word "None"
  | some term => apply "Some" [term]

end Listing

end SchemaShapes
