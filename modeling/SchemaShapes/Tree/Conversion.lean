import SchemaShapes.Catalog.Recursion
import SchemaShapes.Tree.Basic
import SchemaShapes.Tree.Selection

/-! Content trees of components. References are replaced by what they mean, derived types by their
whole content. Elements and groups that are made of themselves have no tree; as others cannot be
nested deeper than there are components, the depth to which they are looked into has a bound. -/
namespace SchemaShapes

open Markup (Usage)
open Schema
open SchemaShapes.Tree (ConversionError)

/-- The outcome of writing something out. -/
abbrev Converted := Except ConversionError

/-- How the elements and the groups that a particle leads to are written out. A group takes the
bounds of the reference to it. -/
structure Conversion where
  element : Located Element → Converted Tree.Element
  group : Occurs → Located GroupDefinition → Converted Tree.Particle

/-- What a particle is among the parts of a sequence: one that is itself a sequence occurring once
is its own parts. -/
def Tree.Particle.parts : Tree.Particle → List Tree.Particle
  | .group .sequence occurs children =>
    if occurs = .once then children else [.group .sequence occurs children]
  | p => [p]

/-- Attributes are optional unless they are required. -/
def AttributeUse.toTree (u : AttributeUse) : Tree.Attribute :=
  ⟨u.name, u.type, u.usage ≠ some .required⟩

namespace Catalog

mutual

/-- Write out the particle at a place. References to nothing are no content. -/
def convertParticle (c : Catalog) (k : Conversion) (place : Place) :
    Particle → Converted Tree.Particle
  | .any occurs _ => .ok (.any occurs)
  | .group ⟨compositor, occurs, particles⟩ =>
    (c.convertParticles k place 0 particles).map (.group compositor occurs)
  | .element occurs e => (k.element ⟨place, e⟩).map (.element occurs)
  | .elementRef occurs name =>
    match c.findElement name with
    | some e => (k.element e).map (.element occurs)
    | none => .ok .empty
  | .groupRef occurs name =>
    match c.findGroup name with
    | some g => k.group occurs g
    | none => .ok .empty

/-- Write out particles of the model group at a place, from the one that is counted as the given
one. -/
def convertParticles (c : Catalog) (k : Conversion) (place : Place) (i : Nat) :
    List Particle → Converted (List Tree.Particle)
  | [] => .ok []
  | p :: ps => do
    let first ← c.convertParticle k (place.part i) p
    let rest ← c.convertParticles k place (i + 1) ps
    return first :: rest

end

/-- Write out the model group of a place, with bounds that may not be its own. -/
def convertModelGroup (c : Catalog) (k : Conversion) (occurs : Occurs) (g : Located ModelGroup) :
    Converted Tree.Particle :=
  (c.convertParticles k g.place 0 g.value.particles).map (.group g.value.compositor occurs)

/-- Write out the particles that make up the content of a complex type. -/
def convertContent (c : Catalog) (k : Conversion) :
    List (Located Particle) → Converted Tree.Particle
  | [] => .ok .empty
  | [p] => c.convertParticle k p.place p.value
  | several => do
    let parts ← several.mapM fun p => c.convertParticle k p.place p.value
    return .group .sequence .once (parts.flatMap Tree.Particle.parts)

/-- The attributes that a complex type admits. -/
def convertAttributes (c : Catalog) (t : Located ComplexType) : List Tree.Attribute :=
  ((c.attributeUses t).filter (·.usage ≠ some .prohibited)).map AttributeUse.toTree

/-- Write out the content of a complex type: its text if it has no more than that. -/
def convertContents (c : Catalog) (k : Conversion) (t : Located ComplexType) :
    Converted Tree.Contents :=
  match c.contentType t with
  | .textOnly => .ok (.simple (c.textCode t))
  | .unknown => .error (.unknownTypeShape (.content t.value.name))
  | _ => (c.convertContent k (c.content t)).map .complex

/-- Write out a complex type. -/
def convertComplexType (c : Catalog) (k : Conversion) (t : Located ComplexType) :
    Converted Tree.Description :=
  (c.convertContents k t).map (⟨c.convertAttributes t, ·, t.value.mixed⟩)

mutual

/-- Write out an element, looking into elements and groups to a depth. -/
def elementToDepth (c : Catalog) : Nat → Located Element → Converted Tree.Element
  | 0, e => .error (.recursive e.value.name)
  | depth + 1, e =>
    if c.isRecursive (.element e) then
      .error (.recursive e.value.name)
    else
      match c.elementType e with
      | .simple code => .ok ⟨e.value.name, .simple code, e.value.nillable⟩
      | .complex t => do
        let description ←
          c.convertComplexType ⟨c.elementToDepth depth, c.groupToDepth depth⟩ t
        return ⟨e.value.name, .complex description, e.value.nillable⟩
      | .unknown => .error (.unknownTypeShape (.element e.value.name))

/-- Write out the group of a definition, looking into elements and groups to a depth. -/
def groupToDepth (c : Catalog) : Nat → Occurs → Located GroupDefinition → Converted Tree.Particle
  | 0, _, g => .error (.recursive g.value.name)
  | depth + 1, occurs, g =>
    if c.isRecursive (.group g) then
      .error (.recursive g.value.name)
    else
      match g.value.modelGroup with
      | some group =>
        c.convertModelGroup ⟨c.elementToDepth depth, c.groupToDepth depth⟩ occurs
          ⟨g.place.part 0, group⟩
      | none => .error (.unknownGroupKind g.value.name)

end

/-- How elements and groups of the catalog are written out. -/
def conversion (c : Catalog) : Conversion :=
  ⟨c.elementToDepth c.places.length, c.groupToDepth c.places.length⟩

/-- The content tree of an element. -/
def elementTree (c : Catalog) (e : Located Element) : Converted Tree.Element :=
  c.conversion.element e

/-- The attributes and the content tree of a complex type. -/
def complexTypeTree (c : Catalog) (t : Located ComplexType) : Converted Tree.Description :=
  c.convertComplexType c.conversion t

/-- The content tree of a particle. -/
def particleTree (c : Catalog) (p : Located Particle) : Converted Tree.Particle :=
  c.convertParticle c.conversion p.place p.value

/-- The content tree of the element that a selector asks for. -/
def tree (c : Catalog) (s : Tree.Selector) : Except Tree.Error Tree.Element := do
  let e ← (c.select s).mapError .selection
  (c.elementTree e).mapError .conversion

end Catalog

end SchemaShapes
