import SchemaShapes.Markup.Vocabulary
import SchemaShapes.Name
import SchemaShapes.Occurs

/-! Components as they are declared: elements, types, groups and attributes whose names, and whose
references to each other, are expanded names. A declaration holds the types and particles that
are written inside it; whatever it refers to by name is held elsewhere. -/
namespace SchemaShapes.Schema

open Markup (LinkKind Method Usage)

/-- A simple type: restricted from a named type or from one written inside it, or a list or union,
whose members are not looked at. -/
inductive SimpleType where
  | restriction (name : Option QName) (base : QName)
  | refinement (name : Option QName) (base : SimpleType)
  | list (name : Option QName)
  | union (name : Option QName)
  deriving DecidableEq

/-- The name of a simple type that is not anonymous. -/
def SimpleType.name : SimpleType → Option QName
  | .restriction name _ => name
  | .refinement name _ => name
  | .list name => name
  | .union name => name

inductive AttributeType where
  | named (name : QName)
  | anonymous (type : SimpleType)
  | unspecified
  deriving DecidableEq

structure Attribute where
  name : QName
  type : AttributeType
  deriving DecidableEq

/-- What attributes a complex type or an attribute group brings: one declared in place or
elsewhere, or those of a group. -/
inductive AttributeItem where
  | declared (declaration : Attribute) (usage : Option Usage)
  | reference (name : QName) (usage : Option Usage)
  | group (name : QName)
  deriving DecidableEq

structure AttributeGroup where
  name : QName
  items : List AttributeItem
  deriving DecidableEq

mutual

structure Element where
  name : QName
  nillable : Bool
  type : ElementType

inductive ElementType where
  | named (name : QName)
  | complex (type : ComplexType)
  | simple (type : SimpleType)
  | unspecified

structure ComplexType where
  name : Option QName
  mixed : Bool
  content : Content
  attributes : List AttributeItem

/-- The content of a complex type: a particle of its own, or derived from the simple or the
complex content of a base. -/
inductive Content where
  | particle (particle : Option Particle)
  | simple (method : Method) (base : QName) (type : Option SimpleType)
  | complex (method : Method) (base : QName) (particle : Option Particle)

inductive Particle where
  | element (occurs : Occurs) (element : Element)
  | elementRef (occurs : Occurs) (name : QName)
  | any (occurs : Occurs) (ns : Option String)
  | group (group : ModelGroup)
  | groupRef (occurs : Occurs) (name : QName)

structure ModelGroup where
  compositor : Compositor
  occurs : Occurs
  particles : List Particle

end

/-- A named model group; it may be written without a compositor. -/
structure GroupDefinition where
  name : QName
  modelGroup : Option ModelGroup

/-- The base that the content of a complex type is derived from. -/
def ComplexType.base : ComplexType → Option QName
  | ⟨_, _, .particle _, _⟩ => none
  | ⟨_, _, .simple _ base _, _⟩ => some base
  | ⟨_, _, .complex _ base _, _⟩ => some base

/-- The particle that a complex type declares itself. -/
def ComplexType.ownParticle : ComplexType → Option Particle
  | ⟨_, _, .particle p, _⟩ => p
  | ⟨_, _, .simple _ _ _, _⟩ => none
  | ⟨_, _, .complex _ _ p, _⟩ => p

mutual

/-- Whether a particle is a model group without content. -/
def Particle.isEmpty : Particle → Bool
  | .group g => g.isEmpty
  | _ => false

/-- Whether a model group has no content, nested groups without content aside. -/
def ModelGroup.isEmpty : ModelGroup → Bool
  | ⟨_, _, particles⟩ => allEmpty particles

/-- Whether all particles are model groups without content. -/
def allEmpty : List Particle → Bool
  | [] => true
  | p :: ps => p.isEmpty && allEmpty ps

end

/-- A reference to another document. -/
structure Link where
  kind : LinkKind
  location : Option String
  ns : Option String

/-- A schema document: what it declares at its top level, each kind in document order. -/
structure Document where
  targetNamespace : Option String
  elements : List Element
  complexTypes : List ComplexType
  simpleTypes : List SimpleType
  groups : List GroupDefinition
  attributeGroups : List AttributeGroup
  attributes : List Attribute
  links : List Link

/-- The document of a target namespace that declares nothing. -/
def Document.empty (targetNamespace : Option String) : Document :=
  ⟨targetNamespace, [], [], [], [], [], [], []⟩

end SchemaShapes.Schema
