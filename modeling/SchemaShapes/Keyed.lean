/-! Lists with one entry per key. A new entry takes the place of the entry that has its key, so a
key stands where it first appeared and holds what it was last given. -/
namespace SchemaShapes.Keyed

variable {α κ : Type} [DecidableEq κ]

/-- Put an entry in the place of the one with its key, else at the end. -/
def put (key : α → κ) (a : α) : List α → List α
  | [] => [a]
  | b :: bs => if key b = key a then a :: bs else b :: put key a bs

/-- Put entries one after the other. -/
def putAll (key : α → κ) (entries : List α) (start : List α) : List α :=
  entries.foldl (fun list a => put key a list) start

/-- The keyed list of a sequence of entries. -/
def ofList (key : α → κ) (entries : List α) : List α :=
  putAll key entries []

theorem putAll_append (key : α → κ) (xs ys start : List α) :
    putAll key (xs ++ ys) start = putAll key ys (putAll key xs start) :=
  List.foldl_append

end SchemaShapes.Keyed
