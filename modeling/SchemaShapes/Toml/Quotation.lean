import SchemaShapes.Text.Digit
import SchemaShapes.Toml.Lexical

/-! Strings of a TOML text. A basic string stands between double quotes and has escapes, a literal
one stands between single quotes and has none; between three quotes a string may have lines. -/
namespace SchemaShapes.Toml

/-- The character that hexadecimal digits give the number of. -/
def charOfHex (digits : List Char) : Option Char := do
  let n ← Text.readNumber 16 digits
  if n.isValidChar then some (Char.ofNat n) else none

/-- The character that an escape stands for, the backslash aside. -/
def readEscape : Reader Char
  | 'b' :: cs => some ('\x08', cs)
  | 't' :: cs => some ('\t', cs)
  | 'n' :: cs => some ('\n', cs)
  | 'f' :: cs => some ('\x0c', cs)
  | 'e' :: cs => some ('\x1b', cs)
  | 'r' :: cs => some ('\r', cs)
  | '"' :: cs => some ('"', cs)
  | '\\' :: cs => some ('\\', cs)
  | 'x' :: a :: b :: cs => (charOfHex [a, b]).map (·, cs)
  | 'u' :: a :: b :: c :: d :: cs => (charOfHex [a, b, c, d]).map (·, cs)
  | 'U' :: a :: b :: c :: d :: e :: f :: g :: h :: cs =>
    (charOfHex [a, b, c, d, e, f, g, h]).map (·, cs)
  | _ => none

theorem length_readEscape {cs rest : List Char} {c : Char} (h : readEscape cs = some (c, rest)) :
    rest.length < cs.length := by
  unfold readEscape at h
  split at h <;> simp_all
  all_goals
    obtain ⟨_, _, _, rfl⟩ := h
    omega

/-- Put a character before what a reader has taken. -/
def push (c : Char) (r : Option (List Char × List Char)) : Option (List Char × List Char) :=
  r.map fun (taken, rest) => (c :: taken, rest)

/-- Read a basic string behind its opening quote. -/
def readBasic (cs : List Char) : Option (List Char × List Char) :=
  match cs with
  | [] => none
  | '"' :: rest => some ([], rest)
  | '\\' :: rest =>
    match _h : readEscape rest with
    | some (c, rest) => push c (readBasic rest)
    | none => none
  | c :: rest => if isControl c then none else push c (readBasic rest)
termination_by cs.length
decreasing_by
  · have := length_readEscape _h
    simp only [List.length_cons]
    omega
  · simp

/-- Read a literal string behind its opening quote. -/
def readLiteral : Reader (List Char)
  | [] => none
  | '\'' :: rest => some ([], rest)
  | c :: rest => if isControl c then none else push c (readLiteral rest)

/-- The end of a string between three quotes. Up to two more quotes before them belong to it. -/
def closeLong (quote : Char) : Reader (List Char)
  | a :: b :: rest =>
    if a = quote then
      if b = quote then some ([quote, quote], rest) else some ([quote], b :: rest)
    else
      some ([], a :: b :: rest)
  | [a] => if a = quote then some ([quote], []) else some ([], [a])
  | [] => some ([], [])

/-- Skip gaps and line ends. -/
def skipBlank : List Char → List Char
  | '\r' :: '\n' :: cs => skipBlank cs
  | c :: cs => if isGap c || c = '\n' then skipBlank cs else c :: cs
  | [] => []

theorem length_skipBlank_le (cs : List Char) : (skipBlank cs).length ≤ cs.length := by
  fun_induction skipBlank cs with
  | case1 cs ih => simp only [List.length_cons]; omega
  | case2 c cs _ _ ih => simp only [List.length_cons]; omega
  | case3 => exact Nat.le_refl _
  | case4 => exact Nat.le_refl _

/-- What follows a backslash at the end of a line: the next line that is not blank. -/
def joinLine? (cs : List Char) : Option (List Char) :=
  (skipNewline? (skipGap cs)).map skipBlank

theorem length_joinLine? {cs rest : List Char} (h : joinLine? cs = some rest) :
    rest.length < cs.length := by
  obtain ⟨line, hl, rfl⟩ := Option.map_eq_some_iff.1 h
  have h1 := length_skipNewline? hl
  have h2 := Text.length_dropWhile_le isGap cs
  have h3 := length_skipBlank_le line
  simp only [skipGap] at h1
  omega

/-- Read a basic string of lines behind its opening quotes. -/
def readLongBasic (cs : List Char) : Option (List Char × List Char) :=
  match _hc : cs with
  | [] => none
  | '"' :: '"' :: '"' :: rest => closeLong '"' rest
  | '\\' :: rest =>
    match _hj : joinLine? rest with
    | some rest => readLongBasic rest
    | none =>
      match _he : readEscape rest with
      | some (c, rest) => push c (readLongBasic rest)
      | none => none
  | '\r' :: '\n' :: rest => push '\r' (push '\n' (readLongBasic rest))
  | c :: rest => if isControl c && c ≠ '\n' then none else push c (readLongBasic rest)
termination_by cs.length
decreasing_by
  · have := length_joinLine? _hj
    simp only [List.length_cons]
    omega
  · have := length_readEscape _he
    simp only [List.length_cons]
    omega
  · simp only [List.length_cons]
    omega
  · simp

/-- Read a literal string of lines behind its opening quotes. -/
def readLongLiteral : Reader (List Char)
  | [] => none
  | '\'' :: '\'' :: '\'' :: rest => closeLong '\'' rest
  | '\r' :: '\n' :: rest => push '\r' (push '\n' (readLongLiteral rest))
  | c :: rest => if isControl c && c ≠ '\n' then none else push c (readLongLiteral rest)

/-- A text without the line end that may stand right behind opening quotes. -/
def skipFirstNewline (cs : List Char) : List Char := (skipNewline? cs).getD cs

/-- Read a string. -/
def readString : Reader (List Char)
  | '"' :: '"' :: '"' :: cs => readLongBasic (skipFirstNewline cs)
  | '"' :: cs => readBasic cs
  | '\'' :: '\'' :: '\'' :: cs => readLongLiteral (skipFirstNewline cs)
  | '\'' :: cs => readLiteral cs
  | _ => none

/-- The characters of keys without quotes. -/
def isBareKey (c : Char) : Bool := c.isAlphanum || c = '_' || c = '-'

/-- Read a key. It has no lines, so three quotes are an empty key and the start of another. -/
def readSimpleKey : Reader String
  | '"' :: cs => (readBasic cs).map fun (key, rest) => (String.ofList key, rest)
  | '\'' :: cs => (readLiteral cs).map fun (key, rest) => (String.ofList key, rest)
  | cs =>
    match cs.takeWhile isBareKey with
    | [] => none
    | key => some (String.ofList key, cs.dropWhile isBareKey)

/-- Read keys with dots between them, however many. -/
def readDottedKeys (cs : List Char) : Option (List String × List Char) :=
  match readSimpleKey cs with
  | none => none
  | some (key, rest) =>
    match skipGap rest with
    | '.' :: more =>
      let next := skipGap more
      if _h : next.length < cs.length then
        (readDottedKeys next).map fun (keys, rest) => (key :: keys, rest)
      else
        none
    | rest => some ([key], rest)
termination_by cs.length

/-- Read keys with dots between them. -/
def readKeys : Reader (List String) := fun cs =>
  (readDottedKeys cs).filter fun (keys, _) => keys.length ≤ maxDepth

end SchemaShapes.Toml
