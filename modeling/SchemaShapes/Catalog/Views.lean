import SchemaShapes.Catalog.Fault
import SchemaShapes.Keyed

/-! Views of components: a declaration together with what it refers to. Types of elements are
looked up, simple types are followed to the builtin type that they restrict, complex types are put
together with their bases, and attribute groups are expanded. -/
namespace SchemaShapes

open Markup (Method Usage)
open Schema

/-- What the type of an element turns out to be. -/
inductive DeclaredType where
  | simple (code : TypeCode)
  | complex (type : Located ComplexType)
  | unknown

/-- What the content of a complex type may hold. -/
inductive ContentType where
  /-- Text and no elements. -/
  | textOnly
  /-- Neither text nor elements. -/
  | empty
  /-- Elements and no text. -/
  | elementOnly
  /-- Elements and text between them. -/
  | mixed
  /-- A base makes no sense for the content. -/
  | unknown
  deriving DecidableEq

/-- An attribute of a complex type, with the code of its type. -/
structure AttributeUse where
  name : QName
  type : TypeCode
  usage : Option Usage
  deriving DecidableEq

namespace Catalog

/-! ### Simple types -/

/-- The code of the first builtin type among the bases that a name leads to, itself included. -/
def namedSimpleCode (c : Catalog) (name : QName) : TypeCode :=
  ((Graph.walk c.simpleBase c.simpleTypeNames [] name).stops.findSome? TypeCode.builtin?).getD
    .anyAtomicType

/-- The code of a simple type. Lists and unions have any atomic values. -/
def simpleTypeCode (c : Catalog) (t : SimpleType) : TypeCode :=
  (t.base.map c.namedSimpleCode).getD .anyAtomicType

def attributeTypeCode (c : Catalog) (a : Attribute) : TypeCode :=
  match a.type with
  | .named name => c.namedSimpleCode name
  | .anonymous type => c.simpleTypeCode type
  | .unspecified => .anyAtomicType

/-! ### Types by name -/

/-- The complex type that a name means. The builtin types come before those of the documents. -/
def complexNamed (c : Catalog) (name : QName) : Option (Located ComplexType) :=
  if name = anyTypeName then some ⟨.top .anyType, anyType⟩
  else if (TypeCode.builtin? name).isSome then none
  else c.findComplexType name

/-- The type that a name means. A complex type of the documents comes before a simple one. -/
def namedType (c : Catalog) (name : QName) : DeclaredType :=
  match c.complexNamed name with
  | some type => .complex type
  | none =>
    match TypeCode.builtin? name with
    | some code => .simple code
    | none =>
      match c.findSimpleType name with
      | some type => .simple (c.simpleTypeCode type)
      | none => .unknown

/-- The type of an element. An element without a type may have any content. -/
def elementType (c : Catalog) (e : Located Element) : DeclaredType :=
  match e.value.type with
  | .named name => c.namedType name
  | .complex type => .complex ⟨e.place.part 0, type⟩
  | .simple type => .simple (c.simpleTypeCode type)
  | .unspecified => .complex ⟨.top .anyType, anyType⟩

/-! ### Lineages

The views of a complex type are read off the list of the type and the complex types that it is
derived from, nearest first. -/

/-- The base of the complex type that a name means. -/
def baseOfNamed (c : Catalog) (name : QName) : Option QName :=
  (c.complexNamed name).bind (·.value.base)

/-- The complex types that a type is derived from, nearest first. -/
def bases (c : Catalog) (t : ComplexType) : List (Located ComplexType) :=
  match t.base with
  | none => []
  | some base =>
    (Graph.walk c.baseOfNamed c.complexTypeNames [] base).stops.filterMap c.complexNamed

/-- A complex type followed by its complex bases. -/
def lineage (c : Catalog) (t : Located ComplexType) : List (Located ComplexType) :=
  t :: c.bases t.value

/-- The particle of a complex type, unless it has no content. -/
def ownContent (t : Located ComplexType) : List (Located Particle) :=
  ((t.value.ownParticle.filter (!·.isEmpty)).map (⟨t.place.part 0, ·⟩)).toList

/-- The particles that make up the content of the first type of a lineage. An extension puts its
own particle behind the content of its base. -/
def contentOf : List (Located ComplexType) → List (Located Particle)
  | [] => []
  | t :: bases =>
    match t.value.content with
    | .complex .extension _ _ => contentOf bases ++ ownContent t
    | _ => ownContent t

/-- The particles that make up the content of a complex type, which is one sequence of them if
there are several. -/
def content (c : Catalog) (t : Located ComplexType) : List (Located Particle) :=
  contentOf (c.lineage t)

/-- What the content of a type with the given particles may hold. Mixed content without elements
is text only. -/
def contentTypeOfParticles (mixed : Bool) (particles : List (Located Particle)) : ContentType :=
  match mixed, particles with
  | true, [] => .textOnly
  | true, _ => .mixed
  | false, [] => .empty
  | false, _ => .elementOnly

/-- What the content of the first type of a lineage may hold. Simple content needs a base of text,
and complex content a complex base. -/
def contentTypeOf (c : Catalog) : List (Located ComplexType) → ContentType
  | [] => .unknown
  | t :: bases =>
    let byParticles := contentTypeOfParticles t.value.mixed (contentOf (t :: bases))
    match t.value.content with
    | .particle _ => byParticles
    | .complex _ base _ =>
      match c.namedType base with
      | .complex _ => byParticles
      | _ => .unknown
    | .simple _ base _ =>
      match c.namedType base with
      | .simple _ => .textOnly
      | .complex _ => if c.contentTypeOf bases = .textOnly then .textOnly else .unknown
      | .unknown => .unknown

def contentType (c : Catalog) (t : Located ComplexType) : ContentType :=
  c.contentTypeOf (c.lineage t)

/-- The code of the text of the first type of a lineage: that of the nearest simple type. Text of
mixed content is a string. -/
def textCodeOf (c : Catalog) : List (Located ComplexType) → TypeCode
  | [] => .anyAtomicType
  | t :: bases =>
    match t.value.content with
    | .simple _ _ (some type) => c.simpleTypeCode type
    | .simple _ base none =>
      match c.namedType base with
      | .simple code => code
      | .complex _ => c.textCodeOf bases
      | .unknown => .anyAtomicType
    | _ => .string

def textCode (c : Catalog) (t : Located ComplexType) : TypeCode := c.textCodeOf (c.lineage t)

/-! ### Attributes -/

/-- The use that a declaration is put to. -/
def useOf (c : Catalog) (usage : Option Usage) (a : Attribute) : AttributeUse :=
  ⟨a.name, c.attributeTypeCode a, usage⟩

/-- The uses that an item brings, if groups in groups are looked into to a depth. -/
def usesToDepth (c : Catalog) : Nat → AttributeItem → List AttributeUse
  | _, .declared a usage => [c.useOf usage a]
  | _, .reference name usage => ((c.findAttribute name).map (c.useOf usage)).toList
  | 0, .group _ => []
  | depth + 1, .group name =>
    match c.findAttributeGroup name with
    | some g => g.items.flatMap (c.usesToDepth depth)
    | none => []

/-- The uses that items bring, with every group in the place of the reference to it. Groups cannot
be nested deeper than there are groups. -/
def usesOfItems (c : Catalog) (items : List AttributeItem) : List AttributeUse :=
  items.flatMap (c.usesToDepth c.attributeGroups.length)

/-- The attributes of the first type of a lineage. Those of its base come first, and an attribute
that is used again keeps its place and takes the later use. -/
def attributeUsesOf (c : Catalog) : List (Located ComplexType) → List AttributeUse
  | [] => []
  | t :: bases =>
    Keyed.putAll AttributeUse.name (c.usesOfItems t.value.attributes) (c.attributeUsesOf bases)

def attributeUses (c : Catalog) (t : Located ComplexType) : List AttributeUse :=
  c.attributeUsesOf (c.lineage t)

end Catalog

end SchemaShapes
