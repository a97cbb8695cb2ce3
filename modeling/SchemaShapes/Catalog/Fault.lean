import SchemaShapes.Catalog.References
import SchemaShapes.Graph.Reach
import SchemaShapes.Graph.Walk

/-! Faults of catalogs: references to nothing, types that are derived from themselves and attribute
groups that bring themselves. References are looked at in all documents before derivations and
groups are in any. -/
namespace SchemaShapes

open Schema

inductive Fault where
  | unresolved (reference : Reference)
  | circularDerivation (name : QName)
  | circularAttributeGroup (name : QName)
  deriving DecidableEq

def Fault.message : Fault → String
  | .unresolved r => "reference to undefined " ++ r.kind.text ++ ": " ++ r.name.text
  | .circularDerivation name => "type " ++ name.text ++ " is derived from itself"
  | .circularAttributeGroup name => "attribute group " ++ name.text ++ " references itself"

/-- The name that a simple type is restricted from, if need be through types without a name. -/
def Schema.SimpleType.base : SimpleType → Option QName
  | .restriction _ base => some base
  | .refinement _ base => base.base
  | .list _ => none
  | .union _ => none

/-- The attribute groups that items refer to. -/
def groupNames (items : List AttributeItem) : List QName :=
  items.filterMap fun
    | .group name => some name
    | _ => none

namespace Catalog

/-- The base of the complex type that a name is defined as. -/
def complexBase (c : Catalog) (name : QName) : Option QName :=
  (c.findComplexType name).bind (·.value.base)

/-- The base of the simple type that a name is defined as. -/
def simpleBase (c : Catalog) (name : QName) : Option QName :=
  (c.findSimpleType name).bind SimpleType.base

/-- The attribute groups that the definition of one refers to. -/
def groupsInside (c : Catalog) (name : QName) : List QName :=
  ((c.findAttributeGroup name).map (groupNames ·.items)).getD []

def complexTypeNames (c : Catalog) : List QName := c.complexTypes.filterMap ComplexType.name

def simpleTypeNames (c : Catalog) : List QName := c.simpleTypes.filterMap SimpleType.name

/-- A type is at fault if its bases come back to a type that they have met. -/
def derivationFault (next : QName → Option QName) (domain : List QName) (name base : Option QName) :
    Option Fault :=
  match name, base with
  | some start, some base =>
    if (Graph.walk next domain [start] base).returns then some (.circularDerivation start)
    else none
  | _, _ => none

def complexTypeFault (c : Catalog) (t : ComplexType) : Option Fault :=
  derivationFault c.complexBase c.complexTypeNames t.name t.base

def simpleTypeFault (c : Catalog) (t : SimpleType) : Option Fault :=
  derivationFault c.simpleBase c.simpleTypeNames t.name t.base

/-- An attribute group is at fault if its references lead to its own name. -/
def attributeGroupFault (c : Catalog) (g : AttributeGroup) : Option Fault :=
  let names := c.attributeGroups.map (·.name)
  if g.name ∈ Graph.reached id c.groupsInside names (groupNames g.items) then
    some (.circularAttributeGroup g.name)
  else
    none

/-- The first of the declarations of a document that leads back to itself. -/
def circularityIn (c : Catalog) (d : Document) : Option Fault :=
  (d.complexTypes.findSome? c.complexTypeFault).or <|
    (d.simpleTypes.findSome? c.simpleTypeFault).or <|
      d.attributeGroups.findSome? c.attributeGroupFault

/-- The first fault of a catalog. -/
def fault (c : Catalog) : Option Fault :=
  ((c.references.find? (!c.defines ·)).map .unresolved).or <|
    c.documents.findSome? fun d => c.circularityIn d.document

end Catalog

end SchemaShapes
