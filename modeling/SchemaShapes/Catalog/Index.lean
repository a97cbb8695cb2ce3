import SchemaShapes.Name

/-! Indexes of declarations. A name leads to a position: the number of a document and the number of
a declaration at its top level. The first declaration that has a name takes it, and duplicates are
ignored. -/
namespace SchemaShapes

/-- Where a declaration stands at the top level of documents. -/
structure Position where
  document : Nat
  item : Nat
  deriving DecidableEq

/-- Names with the positions that they lead to. -/
structure Index where
  entries : List (QName × Position)

namespace Index

def empty : Index := ⟨[]⟩

/-- The position that a name leads to. -/
def get? (ix : Index) (q : QName) : Option Position :=
  (ix.entries.find? (·.1 = q)).map (·.2)

/-- Enter a declaration, unless it has no name or its name leads to another one already. -/
def enter (ix : Index) (name : Option QName) (p : Position) : Index :=
  match name with
  | none => ix
  | some q => if (ix.get? q).isSome then ix else ⟨(q, p) :: ix.entries⟩

variable {α δ : Type}

/-- Enter the declarations of the document with a number, one after the other. -/
def enterItems (name : α → Option QName) (ix : Index) (document : Nat) (items : List α) : Index :=
  items.zipIdx.foldl (fun ix (a, item) => ix.enter (name a) ⟨document, item⟩) ix

/-- The index of what documents declare. -/
def ofDocuments (declared : δ → List α) (name : α → Option QName) (documents : List δ) : Index :=
  documents.zipIdx.foldl (fun ix (d, document) => ix.enterItems name document (declared d)) empty

end Index

end SchemaShapes
