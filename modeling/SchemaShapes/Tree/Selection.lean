import SchemaShapes.Catalog.Basic
import SchemaShapes.Tree.Error

/-! Selection of the element that a content tree is wanted of. Exactly one element at the top level
has to be as the selector asks. -/
namespace SchemaShapes

open Schema

/-- Whether a name is as a selector asks. -/
def Tree.Selector.accepts (s : Tree.Selector) (q : QName) : Bool :=
  s.name.all (· = q.name) && s.ns.all q.inNamespace

/-- The only element that a selector accepts. -/
def Catalog.select (c : Catalog) (s : Tree.Selector) :
    Except Tree.SelectionError (Located Element) :=
  let names (es : List (Located Element)) : List QName := es.map (·.value.name)
  match c.globalElements with
  | [] => .error .noElements
  | all =>
    match all.filter (s.accepts ·.value.name) with
    | [] => .error (.notFound s (names all))
    | [e] => .ok e
    | several => .error (.ambiguous (names several))

end SchemaShapes
