import SchemaShapes.Catalog.Basic
import SchemaShapes.TypeCode

/-! References between components. Every name that a component of a document refers to, at any
depth, is listed in the order in which it is written there, together with the kind of component
that it has to mean. -/
namespace SchemaShapes

/-- The kinds of components that can be referred to. A type may be a simple or a complex one. -/
inductive ReferenceKind where
  | element
  | type
  | simpleType
  | group
  | attributeGroup
  | attribute
  deriving DecidableEq

/-- The name of a kind in messages. -/
def ReferenceKind.text : ReferenceKind → String
  | .element => "element"
  | .type => "type"
  | .simpleType => "simple type"
  | .group => "group"
  | .attributeGroup => "attribute group"
  | .attribute => "attribute"

structure Reference where
  kind : ReferenceKind
  name : QName
  deriving DecidableEq

namespace Schema

/-- The references of a simple type. Members of lists and unions are not looked at. -/
def SimpleType.references : SimpleType → List Reference
  | .restriction _ base => [⟨.simpleType, base⟩]
  | .refinement _ base => base.references
  | .list _ => []
  | .union _ => []

def Attribute.references (a : Attribute) : List Reference :=
  match a.type with
  | .named name => [⟨.simpleType, name⟩]
  | .anonymous type => type.references
  | .unspecified => []

def AttributeItem.references : AttributeItem → List Reference
  | .declared a _ => a.references
  | .reference name _ => [⟨.attribute, name⟩]
  | .group name => [⟨.attributeGroup, name⟩]

mutual

def Element.references : Element → List Reference
  | ⟨_, _, type⟩ => type.references

def ElementType.references : ElementType → List Reference
  | .named name => [⟨.type, name⟩]
  | .complex type => type.references
  | .simple type => type.references
  | .unspecified => []

def ComplexType.references : ComplexType → List Reference
  | ⟨_, _, content, attributes⟩ =>
    content.references ++ attributes.flatMap AttributeItem.references

def Content.references : Content → List Reference
  | .particle particle => referencesInside particle
  | .simple _ base type => ⟨.type, base⟩ :: (type.map SimpleType.references).getD []
  | .complex _ base particle => ⟨.type, base⟩ :: referencesInside particle

/-- The references of a particle, if there is one. -/
def referencesInside : Option Particle → List Reference
  | none => []
  | some particle => particle.references

def Particle.references : Particle → List Reference
  | .element _ element => element.references
  | .elementRef _ name => [⟨.element, name⟩]
  | .any _ _ => []
  | .group group => group.references
  | .groupRef _ name => [⟨.group, name⟩]

def ModelGroup.references : ModelGroup → List Reference
  | ⟨_, _, particles⟩ => referencesOf particles

/-- The references of the particles of a model group. -/
def referencesOf : List Particle → List Reference
  | [] => []
  | particle :: rest => particle.references ++ referencesOf rest

end

def GroupDefinition.references (g : GroupDefinition) : List Reference :=
  (g.modelGroup.map ModelGroup.references).getD []

/-- The references of a document, one kind of declarations after the other. -/
def Document.references (d : Document) : List Reference :=
  d.elements.flatMap Element.references
    ++ d.complexTypes.flatMap ComplexType.references
    ++ d.simpleTypes.flatMap SimpleType.references
    ++ d.groups.flatMap GroupDefinition.references
    ++ d.attributeGroups.flatMap (·.items.flatMap AttributeItem.references)
    ++ d.attributes.flatMap Attribute.references

end Schema

namespace Catalog

def references (c : Catalog) : List Reference := c.documents.flatMap (·.document.references)

/-- Whether a simple type has a name. -/
def definesSimpleType (c : Catalog) (name : QName) : Bool :=
  (TypeCode.builtin? name).isSome || (c.findSimpleType name).isSome

/-- Whether a name means a component of the kind that is referred to. -/
def defines (c : Catalog) (r : Reference) : Bool :=
  match r.kind with
  | .element => (c.findElement r.name).isSome
  | .type =>
    r.name = anyTypeName || c.definesSimpleType r.name || (c.findComplexType r.name).isSome
  | .simpleType => c.definesSimpleType r.name
  | .group => (c.findGroup r.name).isSome
  | .attributeGroup => (c.findAttributeGroup r.name).isSome
  | .attribute => (c.findAttribute r.name).isSome

end Catalog

end SchemaShapes
