import SchemaShapes.Xml.Attribute

/-! Events: what the markup of a document says, one construct after the other. Events keep the
text of a construct as it is written, so that writing them again gives back the document up to
white space in end tags and in the opening of a doctype. Reading pairs every end tag with the
element that is open, but it neither asks for end tags that are missing nor looks at attributes. -/
namespace SchemaShapes.Xml

open Text (cutAt dropByteOrderMark isBlank length_dropWhile_le length_of_cutAt stripEnd)

/-- A start tag: the name and all that follows it inside the tag. -/
structure Tag where
  name : List Char
  inside : List Char
  deriving DecidableEq

inductive Event where
  | text (content : List Char)
  | reference (name : List Char)
  | start (tag : Tag)
  | empty (tag : Tag)
  | finish (name : List Char)
  | comment (content : List Char)
  | cdata (content : List Char)
  | instruction (content : List Char)
  | doctype (content : List Char)
  deriving DecidableEq

/-- An event as it is written. -/
def Event.render : Event → List Char
  | .text content => content
  | .reference name => '&' :: name ++ [';']
  | .start tag => '<' :: tag.name ++ tag.inside ++ ['>']
  | .empty tag => '<' :: tag.name ++ tag.inside ++ ['/', '>']
  | .finish name => '<' :: '/' :: name ++ ['>']
  | .comment content => "<!--".toList ++ content ++ "-->".toList
  | .cdata content => "<![CDATA[".toList ++ content ++ "]]>".toList
  | .instruction content => '<' :: '?' :: content ++ ['?', '>']
  | .doctype content => "<!DOCTYPE ".toList ++ content ++ ['>']

/-- Whether a character belongs to a run of plain text. -/
def inText (c : Char) : Bool := c != '<' && c != '&'

/-- Whether a character belongs to the name of a reference. -/
def inReferenceName (c : Char) : Bool := c != '<' && c != '&' && c != ';'

/-- The inside of a tag, up to the first closing bracket that is not quoted, and what follows. The
first argument is the quote that is open. -/
def cutTag : Option Char → List Char → Option (List Char × List Char)
  | _, [] => none
  | none, c :: cs =>
    if c = '>' then
      some ([], cs)
    else
      let quote := if c = '"' ∨ c = '\'' then some c else none
      (cutTag quote cs).map fun (inside, rest) => (c :: inside, rest)
  | some q, c :: cs =>
    (cutTag (if c = q then none else some q) cs).map fun (inside, rest) => (c :: inside, rest)

/-- The inside of a doctype, up to the bracket that closes as many as were opened, and what
follows. -/
def cutDoctype : Nat → List Char → Option (List Char × List Char)
  | _, [] => none
  | depth, c :: cs =>
    if c = '>' then
      match depth with
      | 0 => some ([], cs)
      | depth + 1 => (cutDoctype depth cs).map fun (inside, rest) => (c :: inside, rest)
    else
      (cutDoctype (if c = '<' then depth + 1 else depth) cs).map fun (inside, rest) =>
        (c :: inside, rest)

/-- The tag with a given inside: its name ends at the first white space. -/
def Tag.ofInside (inside : List Char) : Tag :=
  ⟨inside.takeWhile (!isBlank ·), inside.dropWhile (!isBlank ·)⟩

/-- The start tag or, if it ends with a slash, the empty element of what stands in brackets. -/
def openingEvent (inside : List Char) : Event :=
  if inside.getLast? = some '/' then .empty (.ofInside inside.dropLast)
  else .start (.ofInside inside)

/-- The name in an end tag: white space after it is left out, unless there is nothing else. -/
def closingName (inside : List Char) : List Char :=
  if inside.all isBlank then inside else stripEnd isBlank inside

/-- Cut off the letters that open a doctype, in any case. -/
def dropDoctypeWord (cs : List Char) : Option (List Char) :=
  if (cs.take 7).map Char.toUpper = "DOCTYPE".toList then some (cs.drop 7) else none

/-- The construct after `<!`, and what follows it. -/
def readDeclaration (cs : List Char) : Except Error (Event × List Char) :=
  match cs with
  | '-' :: '-' :: rest =>
    match cutAt "-->".toList rest with
    | some (content, rest) => .ok (.comment content, rest)
    | none => .error .unclosed
  | '[' :: 'C' :: 'D' :: 'A' :: 'T' :: 'A' :: '[' :: rest =>
    match cutAt "]]>".toList rest with
    | some (content, rest) => .ok (.cdata content, rest)
    | none => .error .unclosed
  | _ =>
    match dropDoctypeWord cs with
    | none => .error .unknownMarkup
    | some rest =>
      match cutDoctype 0 rest with
      | none => .error .unclosed
      | some (inside, rest) =>
        match inside.dropWhile isBlank with
        | [] => .error .emptyDoctype
        | content => .ok (.doctype content, rest)

/-- The construct after `<`, and what follows it. -/
def readMarkup (cs : List Char) : Except Error (Event × List Char) :=
  match cs with
  | '!' :: rest => readDeclaration rest
  | '?' :: '>' :: _ => .error .unclosed
  | '?' :: rest =>
    match cutAt ['?', '>'] rest with
    | some (content, rest) => .ok (.instruction content, rest)
    | none => .error .unclosed
  | '/' :: rest =>
    match cutTag none rest with
    | some (inside, rest) => .ok (.finish (closingName inside), rest)
    | none => .error .unclosed
  | _ =>
    match cutTag none cs with
    | some (inside, rest) => .ok (openingEvent inside, rest)
    | none => .error .unclosed

/-- The first event of a text, and what follows it. -/
def readEvent (c : Char) (cs : List Char) : Except Error (Event × List Char) :=
  if c = '<' then
    readMarkup cs
  else if c = '&' then
    match cs.dropWhile inReferenceName with
    | ';' :: rest => .ok (.reference (cs.takeWhile inReferenceName), rest)
    | _ => .error .unclosed
  else
    .ok (.text (c :: cs.takeWhile inText), cs.dropWhile inText)

section Length

theorem length_of_cutTag {quote : Option Char} {cs inside rest : List Char}
    (h : cutTag quote cs = some (inside, rest)) : rest.length < cs.length := by
  induction cs generalizing quote inside with
  | nil => simp [cutTag] at h
  | cons c cs ih =>
    cases quote with
    | none =>
      by_cases hc : c = '>'
      · simp only [cutTag, hc, if_true, Option.some.injEq, Prod.mk.injEq] at h
        simp [h.2]
      · simp only [cutTag, hc, if_false] at h
        obtain ⟨⟨i, r⟩, hir, heq⟩ := Option.map_eq_some_iff.1 h
        obtain ⟨-, rfl⟩ := Prod.mk.inj heq
        exact Nat.lt_succ_of_lt (ih hir)
    | some q =>
      simp only [cutTag] at h
      obtain ⟨⟨i, r⟩, hir, heq⟩ := Option.map_eq_some_iff.1 h
      obtain ⟨-, rfl⟩ := Prod.mk.inj heq
      exact Nat.lt_succ_of_lt (ih hir)

theorem length_of_cutDoctype {depth : Nat} {cs inside rest : List Char}
    (h : cutDoctype depth cs = some (inside, rest)) : rest.length < cs.length := by
  induction cs generalizing depth inside with
  | nil => simp [cutDoctype] at h
  | cons c cs ih =>
    have step : ∀ d, ((cutDoctype d cs).map fun (inside, rest) => (c :: inside, rest)) =
        some (inside, rest) → rest.length < (c :: cs).length := by
      intro d hd
      obtain ⟨⟨i, r⟩, hir, heq⟩ := Option.map_eq_some_iff.1 hd
      obtain ⟨-, rfl⟩ := Prod.mk.inj heq
      exact Nat.lt_succ_of_lt (ih hir)
    by_cases hc : c = '>'
    · cases depth with
      | zero =>
        simp only [cutDoctype, hc, if_true, Option.some.injEq, Prod.mk.injEq] at h
        simp [h.2]
      | succ depth =>
        simp only [cutDoctype, hc, if_true] at h
        exact step depth (by simpa [hc] using h)
    · simp only [cutDoctype, hc, if_false] at h
      exact step _ h

theorem length_of_readDeclaration {cs rest : List Char} {e : Event}
    (h : readDeclaration cs = .ok (e, rest)) : rest.length < cs.length := by
  unfold readDeclaration at h
  split at h
  · split at h
    · rename_i hcut
      cases h
      have := length_of_cutAt hcut
      simp at this ⊢
      omega
    · cases h
  · split at h
    · rename_i hcut
      cases h
      have := length_of_cutAt hcut
      simp at this ⊢
      omega
    · cases h
  · split at h
    · cases h
    · rename_i rest' hword
      split at h
      · cases h
      · rename_i inside rest'' hcut
        split at h
        · cases h
        · cases h
          have h1 := length_of_cutDoctype hcut
          have h2 : rest'.length ≤ cs.length := by
            unfold dropDoctypeWord at hword
            split at hword
            · simp only [Option.some.injEq] at hword
              simp [← hword]
            · cases hword
          omega

theorem length_of_readMarkup {cs rest : List Char} {e : Event}
    (h : readMarkup cs = .ok (e, rest)) : rest.length < cs.length := by
  unfold readMarkup at h
  split at h
  · have := length_of_readDeclaration h
    simp only [List.length_cons]
    omega
  · cases h
  · split at h
    · rename_i hcut
      cases h
      have := length_of_cutAt hcut
      simp at this ⊢
      omega
    · cases h
  · split at h
    · rename_i hcut
      cases h
      have := length_of_cutTag hcut
      simp only [List.length_cons]
      omega
    · cases h
  · split at h
    · rename_i hcut
      cases h
      exact length_of_cutTag hcut
    · cases h

theorem length_of_readEvent {c : Char} {cs rest : List Char} {e : Event}
    (h : readEvent c cs = .ok (e, rest)) : rest.length < (c :: cs).length := by
  unfold readEvent at h
  split at h
  · have := length_of_readMarkup h
    simp only [List.length_cons]
    omega
  · split at h
    · split at h
      · rename_i rest' heq
        cases h
        have := length_dropWhile_le inReferenceName cs
        rw [heq] at this
        simp only [List.length_cons] at this ⊢
        omega
      · cases h
    · cases h
      have := length_dropWhile_le inText cs
      simp only [List.length_cons]
      omega

end Length

/-- What reading a text gives: the events up to the place where it fails or ends. -/
structure Reading where
  events : List Event
  failure : Option Error

/-- Put an event in front of a reading. -/
def Reading.push (e : Event) (r : Reading) : Reading := ⟨e :: r.events, r.failure⟩

/-- The names of the open elements after an event, innermost first, unless the event is an end
tag that does not close the innermost of them. -/
def openAfter (opened : List (List Char)) : Event → Except Error (List (List Char))
  | .start tag => .ok (tag.name :: opened)
  | .finish name =>
    match opened with
    | [] => .error (.unexpectedEnd name)
    | n :: rest => if n = name then .ok rest else .error (.unexpectedEnd name)
  | _ => .ok opened

/-- Read a text inside elements that are open. -/
def readFrom (opened : List (List Char)) (cs : List Char) : Reading :=
  match cs with
  | [] => ⟨[], none⟩
  | c :: cs =>
    match _h : readEvent c cs with
    | .error e => ⟨[], some e⟩
    | .ok (e, rest) =>
      match openAfter opened e with
      | .error e => ⟨[], some e⟩
      | .ok opened => (readFrom opened rest).push e
termination_by cs.length
decreasing_by exact length_of_readEvent _h

/-- Read a document. -/
def read (cs : List Char) : Reading := readFrom [] (dropByteOrderMark cs)

end SchemaShapes.Xml
