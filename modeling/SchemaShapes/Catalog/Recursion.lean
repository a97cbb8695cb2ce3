import SchemaShapes.Catalog.Views

/-! Recursion of components. The nodes of a catalog are a graph whose edges lead from a component to
what it is made of: from an element to its complex type, from a complex type to its base and its
particle, from a model group to its particles, and from references to what they mean. A component
is recursive if edges lead from it back to itself. -/
namespace SchemaShapes

open Schema

namespace Catalog

/-- The node that a particle leads to, if it does. -/
def particleNode (c : Catalog) (place : Place) : Particle → Option Node
  | .element _ e => some (.element ⟨place, e⟩)
  | .elementRef _ name => (c.findElement name).map .element
  | .any _ _ => none
  | .group g => some (.modelGroup ⟨place, g⟩)
  | .groupRef _ name => (c.findGroup name).map .group

/-- The nodes that a node leads to. -/
def successors (c : Catalog) : Node → List Node
  | .element e =>
    match c.elementType e with
    | .complex t => [.complexType t]
    | _ => []
  | .complexType t =>
    ((t.value.base.bind c.complexNamed).map .complexType).toList
      ++ (t.value.ownParticle.bind (c.particleNode (t.place.part 0))).toList
  | .modelGroup g =>
    g.value.particles.zipIdx.filterMap fun (p, i) => c.particleNode (g.place.part i) p
  | .group g => (g.value.modelGroup.map (.modelGroup ⟨g.place.part 0, ·⟩)).toList

/-- Whether a component is made of itself. -/
def isRecursive (c : Catalog) (n : Node) : Bool :=
  (Graph.reached Node.place c.successors c.places (c.successors n)).any (·.place = n.place)

end Catalog

end SchemaShapes
