import SchemaShapes.Catalog.Place
import SchemaShapes.Schema.Component

/-! Nodes: the components that other components can be made of, each at its place. They are the
elements, the complex types, the model groups and the definitions of groups, at any depth. The
parts of a component are counted: an element has its type, a complex type its particle, the
definition of a group its model group, and a model group its particles. -/
namespace SchemaShapes

open Schema

inductive Catalog.Node where
  | element (element : Located Element)
  | complexType (type : Located ComplexType)
  | modelGroup (group : Located ModelGroup)
  | group (definition : Located GroupDefinition)

open Catalog (Node)

def Catalog.Node.place : Node → Place
  | .element e => e.place
  | .complexType t => t.place
  | .modelGroup g => g.place
  | .group g => g.place

namespace Schema

mutual

/-- The nodes of an element declaration at a place. -/
def Element.nodes (p : Place) : Element → List Node
  | ⟨name, nillable, type⟩ => .element ⟨p, ⟨name, nillable, type⟩⟩ :: type.nodes (p.part 0)

/-- The nodes of the type of an element. -/
def ElementType.nodes (p : Place) : ElementType → List Node
  | .complex type => type.nodes p
  | _ => []

/-- The nodes of a complex type at a place. -/
def ComplexType.nodes (p : Place) : ComplexType → List Node
  | ⟨name, mixed, content, attributes⟩ =>
    .complexType ⟨p, ⟨name, mixed, content, attributes⟩⟩ :: content.nodes (p.part 0)

/-- The nodes of the content of a complex type. -/
def Content.nodes (p : Place) : Content → List Node
  | .particle particle => nodesInside p particle
  | .simple _ _ _ => []
  | .complex _ _ particle => nodesInside p particle

/-- The nodes of a particle, if there is one. -/
def nodesInside (p : Place) : Option Particle → List Node
  | none => []
  | some particle => particle.nodes p

/-- The nodes of a particle at a place. A declared element stands where its particle does. -/
def Particle.nodes (p : Place) : Particle → List Node
  | .element _ element => element.nodes p
  | .group group => group.nodes p
  | _ => []

/-- The nodes of a model group at a place. -/
def ModelGroup.nodes (p : Place) : ModelGroup → List Node
  | ⟨compositor, occurs, particles⟩ =>
    .modelGroup ⟨p, ⟨compositor, occurs, particles⟩⟩ :: nodesFrom p 0 particles

/-- The nodes of the particles of a model group, from the one that is counted as the given one. -/
def nodesFrom (p : Place) (i : Nat) : List Particle → List Node
  | [] => []
  | particle :: rest => particle.nodes (p.part i) ++ nodesFrom p (i + 1) rest

end

/-- The nodes of the definition of a group. -/
def GroupDefinition.nodes (p : Place) (g : GroupDefinition) : List Node :=
  .group ⟨p, g⟩ ::
    match g.modelGroup with
    | some group => group.nodes (p.part 0)
    | none => []

end Schema

end SchemaShapes
