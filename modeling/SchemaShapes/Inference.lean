import SchemaShapes.Shape
import SchemaShapes.Tree.Basic

/-! Shapes of content trees. An element is a record named after it: its text or its content is
the body, its attributes are the other properties, and child content is a collection with one
branch for each name of a child. -/
namespace SchemaShapes

/-- The primitive that values of a builtin type become; types without one of their own are
text. -/
def TypeCode.primitive : TypeCode → Primitive
  | .int => .int32
  | .long => .int64
  | .date => .date
  | .dateTime => .dateTime
  | .boolean => .boolean
  | .decimal => .decimal
  | .double => .double
  | .float => .single
  | _ => .string

/-- Only the bounds of exactly one and of at most one keep their meaning; all others allow any
number. -/
def Occurs.multiplicity (o : Occurs) : Multiplicity :=
  if o = .once then .single else if o = .optional then .optional else .multiple

/-- Only one alternative of a choice is present, so none of them has to be. -/
def Multiplicity.widen : Multiplicity → Multiplicity
  | .single => .optional
  | m => m

def Branch.widen (b : Branch) : Branch :=
  { b with multiplicity := b.multiplicity.widen }

/-- The record name of wildcard content. -/
def anyElement : String := "\x7banyNs\x7danyElement"

/-- Wildcards are a repeatable slot that nothing is known of, whatever their bounds are. -/
def wildcardBranch : Branch :=
  ⟨.record (some anyElement), .multiple, .record (some anyElement) [.body .top] false⟩

/-- An attribute is a primitive property under its written name. -/
def Tree.Attribute.property (a : Tree.Attribute) : Property :=
  ⟨a.name.text, .plain a.type.primitive a.optional⟩

/-- The collection of the children of a group. -/
def groupShape : Compositor → List Branch → Shape
  | .choice, branches => .ofBranches (branches.map Branch.widen)
  | _, branches => .ofBranches branches

namespace Tree

mutual

/-- The shape of an element: a record that is never missing itself. -/
def Element.shape : Element → Shape
  | ⟨name, .simple code, nillable⟩ =>
    .record (some name.text) [.body (.plain code.primitive nillable)] false
  | ⟨name, .complex description, _⟩ =>
    .record (some name.text) description.properties false

/-- The properties of a complex type: the body, then the attributes. -/
def Description.properties : Description → List Property
  | ⟨attributes, contents, _⟩ => .body contents.shape :: attributes.map Attribute.property

def Contents.shape : Contents → Shape
  | .simple code => .plain code.primitive false
  | .complex particle => particle.branch.shape

/-- The branch that a particle is in a collection of its siblings. -/
def Particle.branch : Particle → Branch
  | .empty => ⟨.collection, .optional, .top⟩
  | .any _ => wildcardBranch
  | .element occurs element =>
    ⟨.record (some element.name.text), occurs.multiplicity, element.shape⟩
  | .group compositor occurs children =>
    ⟨.collection, occurs.multiplicity, groupShape compositor (branchesOf children)⟩

/-- The branches of particles, in order. -/
def branchesOf : List Particle → List Branch
  | [] => []
  | p :: ps => p.branch :: branchesOf ps

end

end Tree

end SchemaShapes
