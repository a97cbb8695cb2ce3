import SchemaShapes.Markup.Component
import SchemaShapes.Schema.Component
import SchemaShapes.Schema.Context

/-! Declarations of written components: names are expanded, local declarations get the namespace
that their form asks for, and of the parts that a component may have only once the first one
counts. The first thing that is wrong, in document order, is what is reported. -/
namespace SchemaShapes.Schema

open Markup (AttributeHead Component ElementHead Method)

/-- The outcome of declaring something. -/
abbrev Declared := Except DeclarationError

/-- Attribute an error to the component that it is inside of. -/
def within {α : Type} (kind : ComponentKind) (name : String) (r : Declared α) : Declared α :=
  r.mapError (.within kind name)

/-- The name of a component in messages. -/
def shownName (name : Option String) : String := name.getD "<anonymous>"

/-- A simple type from what its variety turned out to be, if it has one. -/
def simpleTypeOf (name : Option String) (variety : Option (Declared SimpleType)) :
    Declared SimpleType :=
  within .simpleType (shownName name)
    (variety.getD (.error (.missingAttribute "simpleType" "restriction")))

mutual

/-- The variety that an item gives to a simple type. -/
def varietyOf (ctx : Context) (name : Option QName) : Component → Option (Declared SimpleType)
  | .derivation .restriction base items =>
    some (match base with
      | some base => (ctx.resolve base).map (.restriction name)
      | none =>
        match firstSimpleType ctx items with
        | some inner => inner.map (.refinement name)
        | none => .error (.missingAttribute "restriction" "base"))
  | .list => some (.ok (.list name))
  | .union => some (.ok (.union name))
  | _ => none

/-- The variety of a simple type by the first item that gives one. -/
def variety (ctx : Context) (name : Option QName) : List Component → Option (Declared SimpleType)
  | [] => none
  | c :: rest =>
    match varietyOf ctx name c with
    | some r => some r
    | none => variety ctx name rest

/-- The simple type that an item is. -/
def simpleTypeAt (ctx : Context) : Component → Option (Declared SimpleType)
  | .simpleType name items =>
    some (simpleTypeOf name (variety ctx (name.map ctx.globalName) items))
  | _ => none

/-- The first simple type among items. -/
def firstSimpleType (ctx : Context) : List Component → Option (Declared SimpleType)
  | [] => none
  | c :: rest =>
    match simpleTypeAt ctx c with
    | some r => some r
    | none => firstSimpleType ctx rest

end

/-- Declare a simple type. -/
def declareSimpleType (ctx : Context) (name : Option String) (items : List Component) :
    Declared SimpleType :=
  simpleTypeOf name (variety ctx (name.map ctx.globalName) items)

/-- Declare an attribute. Its type is the one that is named, else the one written inside it. -/
def declareAttribute (ctx : Context) (name : QName) (head : AttributeHead)
    (items : List Component) : Declared Attribute := do
  match head.type, firstSimpleType ctx items with
  | some type, _ => return ⟨name, .named (← ctx.resolve type)⟩
  | none, some inner => return ⟨name, .anonymous (← inner)⟩
  | none, none => return ⟨name, .unspecified⟩

/-- Declare an attribute at the top level. -/
def declareGlobalAttribute (ctx : Context) (head : AttributeHead) (items : List Component) :
    Declared Attribute :=
  match head.name with
  | none => .error (.nameOrRefRequired .attribute)
  | some name => within .attribute name (declareAttribute ctx (ctx.globalName name) head items)

/-- Declare an attribute of a type or a group. A reference goes before a name. -/
def declareLocalAttribute (ctx : Context) (head : AttributeHead) (items : List Component) :
    Declared AttributeItem := do
  match head.ref, head.name with
  | some ref, _ => return .reference (← within .attribute ref (ctx.resolve ref)) head.usage
  | none, none => throw (.nameOrRefRequired .attribute)
  | none, some name =>
    let attributeName := ctx.localAttributeName name head.form
    let decl ← within .attribute name (declareAttribute ctx attributeName head items)
    return .declared decl head.usage

/-- Declare a reference to an attribute group. -/
def declareAttributeGroupRef (ctx : Context) (ref : Option String) : Declared AttributeItem := do
  match ref with
  | none => throw (.nameOrRefRequired .attributeGroup)
  | some ref => return .group (← within .attributeGroup ref (ctx.resolve ref))

/-- The attributes that an item brings. -/
def attributeItemOf (ctx : Context) : Component → Option (Declared AttributeItem)
  | .attribute head items => some (declareLocalAttribute ctx head items)
  | .attributeGroup _ ref _ => some (declareAttributeGroupRef ctx ref)
  | _ => none

/-- Declare the attributes among items. -/
def declareAttributeItems (ctx : Context) (items : List Component) :
    Declared (List AttributeItem) :=
  (items.filterMap (attributeItemOf ctx)).mapM id

/-- Declare an attribute group. -/
def declareAttributeGroup (ctx : Context) (name : Option String) (items : List Component) :
    Declared AttributeGroup := do
  match name with
  | none => throw (.nameOrRefRequired .attributeGroup)
  | some name =>
    let items ← within .attributeGroup name (declareAttributeItems ctx items)
    return ⟨ctx.globalName name, items⟩

/-- Declare a reference to a model group. -/
def declareGroupRef (ctx : Context) (ref : Option String) (occurs : Occurs) :
    Declared Particle := do
  match ref with
  | none => throw (.nameOrRefRequired .group)
  | some ref => return .groupRef occurs (← within .group ref (ctx.resolve ref))

/-- Declare an element from its fields and from the type that is written inside it, if any. The
latter has to be right even where the element names another type. -/
def declareElement (ctx : Context) (name : QName) (head : ElementHead)
    (inline : Option (Declared ElementType)) : Declared Element := do
  let inline ← inline.getD (.ok .unspecified)
  let type ←
    match head.type with
    | some type => (ctx.resolve type).map ElementType.named
    | none => .ok inline
  return ⟨name, head.nillable.getD false, type⟩

/-- Declare an element inside a model group. A reference goes before a name. -/
def declareLocalElement (ctx : Context) (head : ElementHead)
    (inline : Option (Declared ElementType)) : Declared Particle := do
  match head.ref, head.name with
  | some ref, _ => return .elementRef head.occurs (← within .element ref (ctx.resolve ref))
  | none, none => throw (.nameOrRefRequired .element)
  | none, some name =>
    let elementName := ctx.localElementName name head.form
    return .element head.occurs (← within .element name (declareElement ctx elementName head inline))

/-- What an item of a type or of a derivation declares. -/
inductive Part where
  | type (type : SimpleType)
  | particle (particle : Particle)
  | attributes (item : AttributeItem)

/-- What the items of a derivation declare. -/
structure Parts where
  type : Option SimpleType
  particle : Option Particle
  attributes : List AttributeItem

/-- Put a part before others. Of simple types the last one counts, of particles the first one. -/
def Parts.add (ps : Parts) : Part → Parts
  | .type t => { ps with type := ps.type.or (some t) }
  | .particle p => { ps with particle := some p }
  | .attributes a => { ps with attributes := a :: ps.attributes }

/-- A derivation; its base may be missing. -/
structure Derivation where
  method : Method
  base : Option QName
  parts : Parts

/-- What the items of a complex type declare. -/
structure Body where
  mixed : Bool
  content : Content
  attributes : List AttributeItem

namespace Body

/-- Put a part before the rest of a body. Of particles the first one counts; content that is
derived stands alone. -/
def add (b : Body) : Part → Body
  | .type _ => b
  | .particle p =>
    match b.content with
    | .particle _ => { b with content := .particle (some p) }
    | _ => b
  | .attributes a =>
    match b.content with
    | .particle _ => { b with attributes := a :: b.attributes }
    | _ => b

/-- The body of derived simple content. -/
def ofSimple (mixed : Bool) (derivation : Option (Declared Derivation)) : Declared Body := do
  let d ← derivation.getD (.error (.missingAttribute "simpleContent" "base"))
  match d.base with
  | none => throw (.missingAttribute "simpleContent" "base")
  | some base => return ⟨mixed, .simple d.method base d.parts.type, d.parts.attributes⟩

/-- The body of derived complex content. -/
def ofComplex (mixed : Bool) (derivation : Option (Declared Derivation)) : Declared Body := do
  let d ← derivation.getD (.error (.missingAttribute "complexContent" "base"))
  match d.base with
  | none => throw (.missingAttribute "complexContent" "base")
  | some base => return ⟨mixed, .complex d.method base d.parts.particle, d.parts.attributes⟩

end Body

/-- What an item of a complex type gives: a part of the body, or all that counts of it. -/
inductive BodyItem where
  | part (part : Part)
  | whole (body : Body)

/-- A complex type from its body. -/
def complexTypeOf (ctx : Context) (name : Option String) (body : Declared Body) :
    Declared ComplexType := do
  let b ← within .complexType (shownName name) body
  return ⟨name.map ctx.globalName, b.mixed, b.content, b.attributes⟩

mutual

/-- The type that an item of an element is. -/
def inlineTypeOf (ctx : Context) : Component → Option (Declared ElementType)
  | .complexType name mixed items =>
    some ((complexTypeOf ctx name (declareBody ctx (mixed.getD false) items)).map .complex)
  | .simpleType name items => some ((declareSimpleType ctx name items).map .simple)
  | _ => none

/-- The type that is written inside an element. -/
def inlineType (ctx : Context) : List Component → Option (Declared ElementType)
  | [] => none
  | c :: rest =>
    match inlineTypeOf ctx c with
    | some r => some r
    | none => inlineType ctx rest

/-- The particle that an item of a model group is. -/
def particleOf (ctx : Context) : Component → Option (Declared Particle)
  | .element head items => some (declareLocalElement ctx head (inlineType ctx items))
  | .group _ ref occurs _ => some (declareGroupRef ctx ref occurs)
  | .modelGroup compositor occurs items =>
    some ((declareParticles ctx items).map fun ps => .group ⟨compositor, occurs, ps⟩)
  | .any occurs ns => some (.ok (.any occurs ns))
  | _ => none

/-- Declare the particles of a model group. -/
def declareParticles (ctx : Context) : List Component → Declared (List Particle)
  | [] => .ok []
  | c :: rest =>
    match particleOf ctx c with
    | none => declareParticles ctx rest
    | some r => do
      let p ← r
      let ps ← declareParticles ctx rest
      return p :: ps

/-- The part that an item of a type or of a derivation is. -/
def partOf (ctx : Context) : Component → Option (Declared Part)
  | .simpleType name items => some ((declareSimpleType ctx name items).map .type)
  | .group _ ref occurs _ => some ((declareGroupRef ctx ref occurs).map .particle)
  | .modelGroup compositor occurs items =>
    some ((declareParticles ctx items).map fun ps => .particle (.group ⟨compositor, occurs, ps⟩))
  | .attribute head items => some ((declareLocalAttribute ctx head items).map .attributes)
  | .attributeGroup _ ref _ => some ((declareAttributeGroupRef ctx ref).map .attributes)
  | _ => none

/-- Declare the items of a derivation. -/
def declareParts (ctx : Context) : List Component → Declared Parts
  | [] => .ok ⟨none, none, []⟩
  | c :: rest =>
    match partOf ctx c with
    | none => declareParts ctx rest
    | some r => do
      let part ← r
      let ps ← declareParts ctx rest
      return ps.add part

/-- The derivation that an item of derived content is. -/
def derivationOf (ctx : Context) : Component → Option (Declared Derivation)
  | .derivation method base items =>
    some (do
      let base ← base.mapM ctx.resolve
      let parts ← declareParts ctx items
      return ⟨method, base, parts⟩)
  | _ => none

/-- The first derivation among items. -/
def firstDerivation (ctx : Context) : List Component → Option (Declared Derivation)
  | [] => none
  | c :: rest =>
    match derivationOf ctx c with
    | some r => some r
    | none => firstDerivation ctx rest

/-- What an item of a complex type gives to its body. -/
def bodyItemOf (ctx : Context) (mixed : Bool) : Component → Option (Declared BodyItem)
  | .simpleContent items =>
    some ((Body.ofSimple mixed (firstDerivation ctx items)).map .whole)
  | .complexContent ownMixed items =>
    some ((Body.ofComplex (ownMixed.getD mixed) (firstDerivation ctx items)).map .whole)
  | .group _ ref occurs _ => some ((declareGroupRef ctx ref occurs).map (.part <| .particle ·))
  | .modelGroup compositor occurs items =>
    some ((declareParticles ctx items).map fun ps =>
      .part (.particle (.group ⟨compositor, occurs, ps⟩)))
  | .attribute head items =>
    some ((declareLocalAttribute ctx head items).map (.part <| .attributes ·))
  | .attributeGroup _ ref _ =>
    some ((declareAttributeGroupRef ctx ref).map (.part <| .attributes ·))
  | _ => none

/-- Declare the items of a complex type. What follows derived content is not looked at. -/
def declareBody (ctx : Context) (mixed : Bool) : List Component → Declared Body
  | [] => .ok ⟨mixed, .particle none, []⟩
  | c :: rest =>
    match bodyItemOf ctx mixed c with
    | none => declareBody ctx mixed rest
    | some r => do
      match ← r with
      | .whole body => return body
      | .part part =>
        let body ← declareBody ctx mixed rest
        return body.add part

end

/-- Declare a complex type. -/
def declareComplexType (ctx : Context) (name : Option String) (mixed : Option Bool)
    (items : List Component) : Declared ComplexType :=
  complexTypeOf ctx name (declareBody ctx (mixed.getD false) items)

/-- Declare an element at the top level, where references do not count. -/
def declareGlobalElement (ctx : Context) (head : ElementHead) (items : List Component) :
    Declared Element :=
  match head.name with
  | none => .error (.nameOrRefRequired .element)
  | some name =>
    within .element name (declareElement ctx (ctx.globalName name) head (inlineType ctx items))

/-- The model group of the first compositor among items. -/
def firstModelGroup (ctx : Context) : List Component → Option (Declared ModelGroup)
  | [] => none
  | .modelGroup compositor occurs items :: _ =>
    some ((declareParticles ctx items).map (⟨compositor, occurs, ·⟩))
  | _ :: rest => firstModelGroup ctx rest

/-- Declare a named model group. -/
def declareGroup (ctx : Context) (name : Option String) (items : List Component) :
    Declared GroupDefinition := do
  match name with
  | none => throw (.nameOrRefRequired .group)
  | some name =>
    match firstModelGroup ctx items with
    | none => return ⟨ctx.globalName name, none⟩
    | some group => return ⟨ctx.globalName name, some (← within .group name group)⟩

end SchemaShapes.Schema
