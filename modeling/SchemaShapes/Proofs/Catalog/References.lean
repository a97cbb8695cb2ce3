import SchemaShapes.Proofs.Catalog.Components

/-! References are exactly what components use. Every reference that is listed for a component is
used by it or by a component inside it, at any depth, so the references of a catalog are the names
that its components use. A reference is resolved exactly if the documents define the name as a
component of the kind that is asked for. -/
namespace SchemaShapes

open Relation (ReflTransGen)
open Schema

namespace Catalog

/-! ### References of components -/

/-- A component at any depth of the given one, itself included, uses a name. -/
def Component.Mentions (x : Component) (r : Reference) : Prop :=
  ∃ y, ReflTransGen Component.Part x y ∧ y.Uses r

theorem Component.Uses.mentions {x : Component} {r : Reference} (h : x.Uses r) : x.Mentions r :=
  ⟨x, .refl, h⟩

theorem Component.Mentions.of_part {x y : Component} {r : Reference} (hp : x.Part y)
    (h : y.Mentions r) : x.Mentions r := by
  obtain ⟨z, hz, hr⟩ := h
  exact ⟨z, .head hp hz, hr⟩

end Catalog

open Catalog (Component)

namespace Schema

theorem SimpleType.mentions_of_mem {r : Reference} (t : SimpleType) (h : r ∈ t.references) :
    (Component.simpleType t).Mentions r := by
  induction t with
  | restriction name base =>
    rw [SimpleType.references, List.mem_singleton] at h
    subst h
    exact Component.Uses.baseOfSimple.mentions
  | refinement name base ih => exact .of_part .refinement (ih h)
  | list name => cases h
  | union name => cases h

theorem Attribute.mentions_of_mem {r : Reference} {a : Attribute} (h : r ∈ a.references) :
    (Component.attribute a).Mentions r := by
  cases ha : a.type with
  | named q =>
    simp only [Attribute.references, ha, List.mem_singleton] at h
    subst h
    exact (Component.Uses.typeOfAttribute ha).mentions
  | anonymous t =>
    simp only [Attribute.references, ha] at h
    exact .of_part (.simpleOfAttribute ha) (t.mentions_of_mem h)
  | unspecified => simp [Attribute.references, ha] at h

theorem AttributeItem.mentions_of_mem {r : Reference} {i : AttributeItem} (h : r ∈ i.references) :
    (Component.attributeItem i).Mentions r := by
  cases i with
  | declared a usage => exact .of_part .declared (Attribute.mentions_of_mem h)
  | reference q usage =>
    rw [AttributeItem.references, List.mem_singleton] at h
    subst h
    exact Component.Uses.attributeRef.mentions
  | group q =>
    rw [AttributeItem.references, List.mem_singleton] at h
    subst h
    exact Component.Uses.groupOfItems.mentions

mutual

theorem Element.mentions_of_mem {r : Reference} : (e : Element) → r ∈ e.references →
    (Component.element e).Mentions r
  | ⟨name, nillable, .named q⟩, h => by
    rw [Element.references, ElementType.references, List.mem_singleton] at h
    subst h
    exact (Component.Uses.typeOfElement rfl).mentions
  | ⟨name, nillable, .complex t⟩, h => by
    rw [Element.references, ElementType.references] at h
    exact .of_part (.complexOfElement rfl) (t.mentions_of_mem h)
  | ⟨name, nillable, .simple t⟩, h => by
    rw [Element.references, ElementType.references] at h
    exact .of_part (.simpleOfElement rfl) (t.mentions_of_mem h)
  | ⟨name, nillable, .unspecified⟩, h => by simp [Element.references, ElementType.references] at h

theorem ComplexType.mentions_of_mem {r : Reference} : (t : ComplexType) → r ∈ t.references →
    (Component.complexType t).Mentions r
  | ⟨name, mixed, content, attributes⟩, h => by
    rw [ComplexType.references, List.mem_append, List.mem_flatMap] at h
    rcases h with h | ⟨i, hi, h⟩
    · -- The parts of a type are told apart by what its content is.
      cases content with
      | particle p =>
        obtain ⟨q, rfl, hq⟩ := mentions_of_mem_inside p h
        exact .of_part (.particleOfType rfl) hq
      | simple method base type =>
        rcases List.mem_cons.mp h with rfl | h
        · exact (Component.Uses.baseOfComplex rfl).mentions
        · cases type with
          | none => cases h
          | some u => exact .of_part (.simpleOfContent rfl) (u.mentions_of_mem h)
      | complex method base p =>
        rcases List.mem_cons.mp h with rfl | h
        · exact (Component.Uses.baseOfComplex rfl).mentions
        · obtain ⟨q, rfl, hq⟩ := mentions_of_mem_inside p h
          exact .of_part (.particleOfType rfl) hq
    · exact .of_part (.itemOfType hi) (AttributeItem.mentions_of_mem h)

theorem mentions_of_mem_inside {r : Reference} : (p : Option Particle) → r ∈ referencesInside p →
    ∃ q, p = some q ∧ (Component.particle q).Mentions r
  | none, h => by simp [referencesInside] at h
  | some p, h => ⟨p, rfl, p.mentions_of_mem h⟩

theorem Particle.mentions_of_mem {r : Reference} : (p : Particle) → r ∈ p.references →
    (Component.particle p).Mentions r
  | .element _ e, h => .of_part .element (e.mentions_of_mem h)
  | .elementRef _ q, h => by
    rw [Particle.references, List.mem_singleton] at h
    subst h
    exact Component.Uses.elementRef.mentions
  | .any _ _, h => by simp [Particle.references] at h
  | .group g, h => .of_part .nested (g.mentions_of_mem h)
  | .groupRef _ q, h => by
    rw [Particle.references, List.mem_singleton] at h
    subst h
    exact Component.Uses.groupRef.mentions

theorem ModelGroup.mentions_of_mem {r : Reference} : (g : ModelGroup) → r ∈ g.references →
    (Component.modelGroup g).Mentions r
  | ⟨compositor, occurs, particles⟩, h => by
    obtain ⟨p, hp, hr⟩ := mentions_of_mem_some particles h
    exact .of_part (.particleOfGroup hp) hr

theorem mentions_of_mem_some {r : Reference} : (ps : List Particle) → r ∈ referencesOf ps →
    ∃ p ∈ ps, (Component.particle p).Mentions r
  | [], h => by simp [referencesOf] at h
  | p :: ps, h => by
    rw [referencesOf, List.mem_append] at h
    rcases h with h | h
    · exact ⟨p, List.mem_cons_self, p.mentions_of_mem h⟩
    · obtain ⟨q, hq, hr⟩ := mentions_of_mem_some ps h
      exact ⟨q, List.mem_cons_of_mem _ hq, hr⟩

end

theorem GroupDefinition.mentions_of_mem {r : Reference} {d : GroupDefinition}
    (h : r ∈ d.references) : (Component.group d).Mentions r := by
  cases hg : d.modelGroup with
  | none => simp [GroupDefinition.references, hg] at h
  | some g =>
    simp only [GroupDefinition.references, hg, Option.map_some, Option.getD_some] at h
    exact .of_part (.definition hg) (g.mentions_of_mem h)

end Schema

namespace Catalog

variable {c : Catalog}

theorem Component.Mentions.of_holds {x : Component} {r : Reference} (h : x.Mentions r)
    (hx : c.Holds x) : ∃ y, c.Holds y ∧ y.Uses r := by
  obtain ⟨y, hpath, hr⟩ := h
  refine ⟨y, ?_, hr⟩
  clear hr
  induction hpath with
  | refl => exact hx
  | tail _ hp ih => exact .part ih hp

/-- The references of a catalog are the names that components of it use, at any depth. -/
theorem mem_references_iff {r : Reference} :
    r ∈ c.references ↔ ∃ x, c.Holds x ∧ x.Uses r := by
  constructor
  · intro h
    obtain ⟨d, hd, h⟩ := List.mem_flatMap.mp h
    have global : ∀ {α : Type} {declared : Document → List α} {a : α}, a ∈ declared d.document →
        a ∈ c.documents.flatMap (declared ·.document) :=
      fun ha => List.mem_flatMap.mpr ⟨d, hd, ha⟩
    simp only [Document.references, List.mem_append, List.mem_flatMap] at h
    rcases h with ((((⟨e, he, h⟩ | ⟨t, ht, h⟩) | ⟨t, ht, h⟩) | ⟨g, hg, h⟩) | ⟨g, hg, i, hi, h⟩) |
      ⟨a, ha, h⟩
    · exact (e.mentions_of_mem h).of_holds (.element (global he))
    · exact (t.mentions_of_mem h).of_holds (.complexType (global ht))
    · exact (t.mentions_of_mem h).of_holds (.simpleType (global ht))
    · exact (GroupDefinition.mentions_of_mem h).of_holds (.group (global hg))
    · exact (AttributeItem.mentions_of_mem h).of_holds
        (.part (.attributeGroup (global hg)) (.itemOfGroup hi))
    · exact (Attribute.mentions_of_mem h).of_holds (.declaredAttribute (global ha))
  · rintro ⟨x, hx, hr⟩
    exact hx.references_subset hr.mem_references

/-! ### Definitions of names -/

/-- A simple type has the name: a builtin one, or one that is declared at the top level. -/
def HasSimpleType (c : Catalog) (q : QName) : Prop :=
  (∃ code, TypeCode.builtin? q = some code) ∨ ∃ t ∈ c.simpleTypes, t.name = some q

/-- A component of the kind that is referred to has the name. Types of elements and bases of complex
types may be of either sort, and may be the type of any content. -/
def Defined (c : Catalog) (r : Reference) : Prop :=
  match r.kind with
  | .element => ∃ e ∈ c.elements, e.name = r.name
  | .type =>
    r.name = anyTypeName ∨ c.HasSimpleType r.name ∨ ∃ t ∈ c.complexTypes, t.name = some r.name
  | .simpleType => c.HasSimpleType r.name
  | .group => ∃ g ∈ c.groups, g.name = r.name
  | .attributeGroup => ∃ g ∈ c.attributeGroups, g.name = r.name
  | .attribute => ∃ a ∈ c.attributes, a.name = r.name

theorem definesSimpleType_iff {q : QName} : c.definesSimpleType q = true ↔ c.HasSimpleType q := by
  rw [definesSimpleType, Bool.or_eq_true, Option.isSome_iff_exists, findSimpleType,
    Option.isSome_map, isSome_lookup_iff]
  rfl

theorem defines_iff {r : Reference} : c.defines r = true ↔ c.Defined r := by
  obtain ⟨kind, q⟩ := r
  cases kind with
  | element => simp [defines, Defined, findElement, isSome_lookup_iff, elements]
  | type =>
    simp [defines, Defined, findComplexType, isSome_lookup_iff, complexTypes,
      definesSimpleType_iff, or_assoc]
  | simpleType => exact definesSimpleType_iff
  | group => simp [defines, Defined, findGroup, isSome_lookup_iff, groups]
  | attributeGroup =>
    simp [defines, Defined, findAttributeGroup, isSome_lookup_iff, attributeGroups]
  | _ => simp [defines, Defined, findAttribute, isSome_lookup_iff, attributes]

end Catalog

end SchemaShapes
