import SchemaShapes.Proofs.Catalog.Recursion

/-! Components at any depth and the names that they use. A component of a catalog is declared at the
top level or written inside a component of it. Without faults every name that a component uses is
found: as the type, the simple type, the element, the group or the attributes it is used for. -/
namespace SchemaShapes

open Schema

namespace Catalog

/-- A component of one of the kinds that can be written in each other. -/
inductive Component where
  | element (e : Element)
  | complexType (t : ComplexType)
  | simpleType (t : SimpleType)
  | particle (p : Particle)
  | modelGroup (g : ModelGroup)
  | group (d : GroupDefinition)
  | attribute (a : Attribute)
  | attributeItem (i : AttributeItem)
  | attributeGroup (g : AttributeGroup)

namespace Component

/-- The second component is written directly inside the first. -/
inductive Part : Component → Component → Prop
  | complexOfElement {e : Element} {t : ComplexType} (h : e.type = .complex t) :
    Part (.element e) (.complexType t)
  | simpleOfElement {e : Element} {t : SimpleType} (h : e.type = .simple t) :
    Part (.element e) (.simpleType t)
  | particleOfType {t : ComplexType} {p : Particle} (h : t.ownParticle = some p) :
    Part (.complexType t) (.particle p)
  | simpleOfContent {t : ComplexType} {method : Markup.Method} {base : QName} {u : SimpleType}
    (h : t.content = .simple method base (some u)) : Part (.complexType t) (.simpleType u)
  | itemOfType {t : ComplexType} {i : AttributeItem} (h : i ∈ t.attributes) :
    Part (.complexType t) (.attributeItem i)
  | refinement {name : Option QName} {t : SimpleType} :
    Part (.simpleType (.refinement name t)) (.simpleType t)
  | element {occurs : Occurs} {e : Element} : Part (.particle (.element occurs e)) (.element e)
  | nested {g : ModelGroup} : Part (.particle (.group g)) (.modelGroup g)
  | particleOfGroup {g : ModelGroup} {p : Particle} (h : p ∈ g.particles) :
    Part (.modelGroup g) (.particle p)
  | definition {d : GroupDefinition} {g : ModelGroup} (h : d.modelGroup = some g) :
    Part (.group d) (.modelGroup g)
  | simpleOfAttribute {a : Attribute} {t : SimpleType} (h : a.type = .anonymous t) :
    Part (.attribute a) (.simpleType t)
  | declared {a : Attribute} {usage : Option Markup.Usage} :
    Part (.attributeItem (.declared a usage)) (.attribute a)
  | itemOfGroup {g : AttributeGroup} {i : AttributeItem} (h : i ∈ g.items) :
    Part (.attributeGroup g) (.attributeItem i)

/-- A component uses a name, its parts aside. -/
inductive Uses : Component → Reference → Prop
  | typeOfElement {e : Element} {q : QName} (h : e.type = .named q) : Uses (.element e) ⟨.type, q⟩
  | baseOfComplex {t : ComplexType} {q : QName} (h : t.base = some q) :
    Uses (.complexType t) ⟨.type, q⟩
  | baseOfSimple {name : Option QName} {q : QName} :
    Uses (.simpleType (.restriction name q)) ⟨.simpleType, q⟩
  | elementRef {occurs : Occurs} {q : QName} : Uses (.particle (.elementRef occurs q)) ⟨.element, q⟩
  | groupRef {occurs : Occurs} {q : QName} : Uses (.particle (.groupRef occurs q)) ⟨.group, q⟩
  | typeOfAttribute {a : Attribute} {q : QName} (h : a.type = .named q) :
    Uses (.attribute a) ⟨.simpleType, q⟩
  | attributeRef {q : QName} {usage : Option Markup.Usage} :
    Uses (.attributeItem (.reference q usage)) ⟨.attribute, q⟩
  | groupOfItems {q : QName} : Uses (.attributeItem (.group q)) ⟨.attributeGroup, q⟩

/-- All references of a component, those of its parts among them. -/
def references : Component → List Reference
  | .element e => e.references
  | .complexType t => t.references
  | .simpleType t => t.references
  | .particle p => p.references
  | .modelGroup g => g.references
  | .group d => d.references
  | .attribute a => a.references
  | .attributeItem i => i.references
  | .attributeGroup g => g.items.flatMap AttributeItem.references

theorem references_subset_referencesOf {p : Particle} {ps : List Particle} (h : p ∈ ps) :
    p.references ⊆ referencesOf ps := by
  induction ps with
  | nil => cases h
  | cons q ps ih =>
    rw [referencesOf]
    rcases List.mem_cons.mp h with rfl | h
    · exact List.subset_append_left _ _
    · exact List.Subset.trans (ih h) (List.subset_append_right _ _)

theorem references_subset_of_part {x y : Component} (h : x.Part y) :
    y.references ⊆ x.references := by
  cases h with
  | @complexOfElement e t h =>
    cases e
    cases h
    simp [references, Element.references, ElementType.references]
  | @simpleOfElement e t h =>
    cases e
    cases h
    simp [references, Element.references, ElementType.references]
  | @particleOfType t p h =>
    obtain ⟨name, mixed, content, attributes⟩ := t
    cases content <;> simp only [ComplexType.ownParticle, reduceCtorEq] at h <;> subst h
    · simp [references, ComplexType.references, Content.references, referencesInside]
    · simp only [references, ComplexType.references, Content.references, referencesInside]
      intro r hr
      simp [hr]
  | @simpleOfContent t method base u h =>
    cases t
    cases h
    intro r hr
    simp only [references] at hr
    simp [references, ComplexType.references, Content.references, hr]
  | @itemOfType t i h =>
    cases t
    intro r hr
    simp only [references, ComplexType.references, List.mem_append, List.mem_flatMap]
    exact .inr ⟨i, h, hr⟩
  | refinement => simp [references, SimpleType.references]
  | element => simp [references, Particle.references]
  | nested => simp [references, Particle.references]
  | @particleOfGroup g p h =>
    cases g
    simpa only [references, ModelGroup.references] using references_subset_referencesOf h
  | definition h => simp [references, GroupDefinition.references, h]
  | simpleOfAttribute h => simp [references, Attribute.references, h]
  | declared => simp [references, AttributeItem.references]
  | @itemOfGroup g i h =>
    intro r hr
    exact List.mem_flatMap.mpr ⟨i, h, hr⟩

theorem Uses.mem_references {x : Component} {r : Reference} (h : x.Uses r) : r ∈ x.references := by
  cases h with
  | @typeOfElement e q h =>
    cases e
    cases h
    simp [references, Element.references, ElementType.references]
  | @baseOfComplex t q h =>
    obtain ⟨name, mixed, content, attributes⟩ := t
    cases content <;> simp only [ComplexType.base, Option.some.injEq, reduceCtorEq] at h <;> subst h
    all_goals simp [references, ComplexType.references, Content.references]
  | baseOfSimple => simp [references, SimpleType.references]
  | elementRef => simp [references, Particle.references]
  | groupRef => simp [references, Particle.references]
  | typeOfAttribute h => simp [references, Attribute.references, h]
  | attributeRef => simp [references, AttributeItem.references]
  | groupOfItems => simp [references, AttributeItem.references]

end Component

variable {c : Catalog}

/-- A component is declared at the top level of a catalog, is the type of any content, or is written
inside a component of the catalog. -/
inductive Holds (c : Catalog) : Component → Prop
  | anyType : Holds c (.complexType SchemaShapes.anyType)
  | element {e : Element} (h : e ∈ c.elements) : Holds c (.element e)
  | complexType {t : ComplexType} (h : t ∈ c.complexTypes) : Holds c (.complexType t)
  | simpleType {t : SimpleType} (h : t ∈ c.simpleTypes) : Holds c (.simpleType t)
  | group {d : GroupDefinition} (h : d ∈ c.groups) : Holds c (.group d)
  | attributeGroup {g : AttributeGroup} (h : g ∈ c.attributeGroups) : Holds c (.attributeGroup g)
  | declaredAttribute {a : Attribute} (h : a ∈ c.attributes) : Holds c (.attribute a)
  | part {x y : Component} (h : Holds c x) (hp : x.Part y) : Holds c y

theorem Holds.references_subset {x : Component} (h : c.Holds x) : x.references ⊆ c.references := by
  induction h with
  | anyType =>
    simp [Component.references, SchemaShapes.anyType, ComplexType.references, Content.references,
      referencesInside, Particle.references, ModelGroup.references, referencesOf]
  | part _ hp ih => exact List.Subset.trans (Component.references_subset_of_part hp) ih
  | element h | complexType h | simpleType h | group h | attributeGroup h | declaredAttribute h =>
    obtain ⟨d, hd, h⟩ := List.mem_flatMap.mp h
    intro r hr
    refine List.mem_flatMap.mpr ⟨d, hd, ?_⟩
    simp only [Component.references, List.mem_flatMap] at hr
    simp only [Document.references, List.mem_append, List.mem_flatMap]
    grind

/-- What a reference has to lead to for the views: the component that it means, if it means one. -/
def Resolves (c : Catalog) (r : Reference) : Prop :=
  match r.kind with
  | .element => (c.findElement r.name).isSome
  | .type => c.namedType r.name ≠ .unknown
  | .simpleType => (TypeCode.builtin? r.name).isSome ∨ (c.findSimpleType r.name).isSome
  | .group => (c.findGroup r.name).isSome
  | .attributeGroup => (c.findAttributeGroup r.name).isSome
  | .attribute => (c.findAttribute r.name).isSome

theorem resolves_of_defines {r : Reference} (h : c.defines r = true) : c.Resolves r := by
  obtain ⟨kind, q⟩ := r
  cases kind with
  | type =>
    simp only [defines, definesSimpleType, Bool.or_eq_true, decide_eq_true_eq] at h
    simp only [Resolves, namedType, complexNamed]
    by_cases hany : q = anyTypeName
    · simp [hany]
    · rw [if_neg hany]
      cases hcode : TypeCode.builtin? q with
      | some code => simp
      | none =>
        cases ht : c.findComplexType q with
        | some t => simp
        | none =>
          cases hs : c.findSimpleType q with
          | some t => simp
          | none => simp [hany, hcode, ht, hs] at h
  | simpleType => simpa [Resolves, defines, definesSimpleType] using h
  | _ => exact h

theorem defines_of_fault_eq_none (h : c.fault = none) {r : Reference} (hr : r ∈ c.references) :
    c.defines r = true := by
  obtain ⟨hfind, -⟩ := Option.or_eq_none_iff.mp h
  simpa using List.find?_eq_none.mp (Option.map_eq_none_iff.mp hfind) r hr

/-- Without faults, every name that a component at any depth uses is found. -/
theorem Holds.resolves (h : c.fault = none) {x : Component} (hx : c.Holds x) {r : Reference}
    (hr : x.Uses r) : c.Resolves r :=
  resolves_of_defines (defines_of_fault_eq_none h (hx.references_subset hr.mem_references))

/-! ### Nodes as components -/

/-- The component that stands at the place of a node. -/
def Node.component : Node → Component
  | .element e => .element e.value
  | .complexType t => .complexType t.value
  | .modelGroup g => .modelGroup g.value
  | .group d => .group d.value

theorem holds_of_topLevel {n : Node} (h : c.TopLevel n) : c.Holds n.component := by
  cases h with
  | anyType => exact .anyType
  | element h => exact .element (List.mem_of_getElem? h)
  | complexType h => exact .complexType (List.mem_of_getElem? h)
  | group h => exact .group (List.mem_of_getElem? h)

theorem holds_of_ownNode {place : Place} {p : Particle} {n : Node} (h : c.Holds (.particle p))
    (hn : ownNode place p = some n) : c.Holds n.component := by
  cases p with
  | element occurs e =>
    cases hn
    exact .part h .element
  | group g =>
    cases hn
    exact .part h .nested
  | _ => cases hn

theorem holds_of_part {n m : Node} (h : c.Holds n.component) (hm : n.Part m) :
    c.Holds m.component := by
  cases hm with
  | type ht => exact .part h (.complexOfElement ht)
  | content hp hn => exact holds_of_ownNode (.part h (.particleOfType hp)) hn
  | particle hp hn =>
    exact holds_of_ownNode (.part h (.particleOfGroup (List.mem_of_getElem? hp))) hn
  | definition hg => exact .part h (.definition hg)

/-- Every node of a catalog is a component that it holds. -/
theorem holds_of_mem_nodes {n : Node} (h : n ∈ c.nodes) : c.Holds n.component := by
  obtain ⟨r, hr, hpath⟩ := exists_path_of_mem_nodes h
  clear h
  induction hpath with
  | refl => exact holds_of_topLevel hr
  | tail _ hm ih => exact holds_of_part ih hm

end Catalog

end SchemaShapes
