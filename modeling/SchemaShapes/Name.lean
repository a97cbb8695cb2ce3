/-! Expanded names: a local name together with the namespace that it belongs to. The empty
namespace is no namespace at all, so a name built from it carries none. -/
namespace SchemaShapes

/-- The namespace of the components of XML Schema itself. -/
def xsNamespace : String := "http://www.w3.org/2001/XMLSchema"

structure QName where
  ns : Option String
  name : String
  deriving DecidableEq

namespace QName

/-- The name in a namespace, where the empty text stands for none. -/
def of (ns : Option String) (name : String) : QName :=
  ⟨ns.filter (· ≠ ""), name⟩

/-- The name in no namespace. -/
def bare (name : String) : QName := of none name

/-- The name in the namespace of XML Schema. -/
def xs (name : String) : QName := of (some xsNamespace) name

def isXs (q : QName) : Bool := q.ns == some xsNamespace

/-- Membership in a namespace; the empty text asks for names without one. -/
def inNamespace (q : QName) (ns : String) : Bool := q.ns.getD "" == ns

/-- The written form: the namespace in braces, if there is one, then the local name. -/
def text (q : QName) : String :=
  match q.ns with
  | some ns => "\x7b" ++ ns ++ "\x7d" ++ q.name
  | none => q.name

/-- Names without a namespace come first; then the namespaces and then the local names decide,
each by code points. -/
protected def compare (a b : QName) : Ordering :=
  (compare a.ns b.ns).then (compare a.name b.name)

instance : Ord QName := ⟨QName.compare⟩

@[simp] theorem of_empty (name : String) : of (some "") name = bare name := by
  simp [of, bare]

theorem ns_of_ne_empty (ns : Option String) (name : String) : (of ns name).ns ≠ some "" := by
  cases ns with
  | none => simp [of]
  | some ns => by_cases h : ns = "" <;> simp [of, Option.filter, h]

end QName

end SchemaShapes
