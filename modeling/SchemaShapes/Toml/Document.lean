import SchemaShapes.Text.Blank
import SchemaShapes.Toml.Quotation
import SchemaShapes.Toml.Scalar
import SchemaShapes.Toml.Table

/-! TOML documents. A document is a sequence of statements, each on lines of its own: headers, and
keys with values that go into the table of the header before them. -/
namespace SchemaShapes.Toml

/-- Read the items of an array behind its opening bracket, up to its end. -/
def readItems (read : Reader Item) (cs : List Char) : Option (List Item × List Char) :=
  match skipFiller cs with
  | ']' :: rest => some ([], rest)
  | start =>
    match read start with
    | none => none
    | some (item, rest) =>
      match skipFiller rest with
      | ']' :: rest => some ([item], rest)
      | ',' :: rest =>
        if _h : rest.length < cs.length then
          (readItems read rest).map fun (items, rest) => (item :: items, rest)
        else
          none
      | _ => none
termination_by cs.length

/-- Read a key and its value into a table in place. There may be line ends around the sign. -/
def readPair (read : Reader Item) (t : Table) (cs : List Char) : Option (Table × List Char) := do
  let (keys, rest) ← readKeys cs
  let '=' :: rest := skipFiller rest | none
  let (item, rest) ← read (skipFiller rest)
  return (← t.define keys item, rest)

/-- Read the pairs of a table in place into it, up to its end. -/
def readPairs (read : Reader Item) (t : Table) (cs : List Char) : Option (Table × List Char) :=
  match skipFiller cs with
  | '\x7d' :: rest => some (t, rest)
  | start =>
    match readPair read t start with
    | none => none
    | some (t, rest) =>
      match skipFiller rest with
      | '\x7d' :: rest => some (t, rest)
      | ',' :: rest => if _h : rest.length < cs.length then readPairs read t rest else none
      | _ => none
termination_by cs.length

/-- Read a value in which arrays and tables are nested to a depth. -/
def readValue : Nat → Reader Item
  | 0, cs => readAtom cs
  | depth + 1, cs =>
    match cs with
    | '[' :: rest => (readItems (readValue depth) rest).map fun (items, rest) => (.array items, rest)
    | '\x7b' :: rest =>
      (readPairs (readValue depth) .opened rest).map fun (t, rest) =>
        (.table { t with origin := .inline }, rest)
    | _ => readAtom cs
where
  /-- Read a string or a scalar. -/
  readAtom (cs : List Char) : Option (Item × List Char) :=
    match cs with
    | '"' :: _ => (readString cs).map fun (s, rest) => (.text (String.ofList s), rest)
    | '\'' :: _ => (readString cs).map fun (s, rest) => (.text (String.ofList s), rest)
    | _ => (readScalar cs).map fun (inRange, rest) => (.scalar inRange, rest)

/-- A document that has been read so far, and the table that its statements now go into. -/
structure Draft where
  root : Table
  header : List String

/-- Read a statement, up to the end of its line. -/
def readStatement (d : Draft) (cs : List Char) : Option (Draft × List Char) :=
  match cs with
  | '[' :: '[' :: rest => do
    let (keys, rest) ← readKeys (skipGap rest)
    let ']' :: ']' :: rest := skipGap rest | none
    return (⟨← d.root.openElement keys, keys⟩, ← endLine rest)
  | '[' :: rest => do
    let (keys, rest) ← readKeys (skipGap rest)
    let ']' :: rest := skipGap rest | none
    return (⟨← d.root.openTable keys, keys⟩, ← endLine rest)
  | _ => do
    let (keys, rest) ← readKeys cs
    let '=' :: rest := skipGap rest | none
    let (item, rest) ← readValue maxDepth (skipGap rest)
    let root ← d.root.atPath false (·.define keys item) d.header
    return (⟨root, d.header⟩, ← endLine rest)

/-- Read statements up to the end of a text. -/
def readStatements (d : Draft) (cs : List Char) : Option Table :=
  match skipFiller cs with
  | [] => some d.root
  | start =>
    match readStatement d start with
    | none => none
    | some (d, rest) => if _h : rest.length < cs.length then readStatements d rest else none
termination_by cs.length

/-- The table that a text describes. -/
def Table.parse (text : String) : Option Table :=
  readStatements ⟨.opened, []⟩ (Text.dropByteOrderMark text.toList)

end SchemaShapes.Toml
