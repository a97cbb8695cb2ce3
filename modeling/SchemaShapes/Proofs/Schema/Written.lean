import SchemaShapes.Proofs.Catalog.Components
import SchemaShapes.Proofs.Schema.Items

/-! Written components and what they are declared as. The types inside an element or an attribute,
the particles of a group and the attributes of an attribute group are what something that is written
inside it is declared as. -/
namespace SchemaShapes

open Relation (ReflTransGen)

namespace Markup

/-- What is written directly inside a component. -/
def Component.items : Component → List Component
  | .element _ items => items
  | .attribute _ items => items
  | .attributeGroup _ _ items => items
  | .simpleType _ items => items
  | .complexType _ _ items => items
  | .simpleContent items => items
  | .complexContent _ items => items
  | .derivation _ _ items => items
  | .group _ _ _ items => items
  | .modelGroup _ _ items => items
  | _ => []

/-- The second component is written inside the first at some depth, or is it. -/
def Component.Inside : Component → Component → Prop := ReflTransGen fun c c' => c' ∈ c.items

/-- A component is written in a document, at some depth. -/
def Document.Writes (m : Document) (c : Component) : Prop := ∃ item ∈ m.items, item.Inside c

end Markup

namespace Schema

open Markup (Component)

/-- A name is what a written reference means. -/
def Context.Resolves (ctx : Context) (q : QName) : Prop := ∃ written, ctx.resolve written = .ok q

/-- What a document declares at its top level. -/
def Document.components (d : Document) : List Catalog.Component :=
  d.elements.map .element ++ d.complexTypes.map .complexType ++ d.simpleTypes.map .simpleType ++
    d.groups.map .group ++ d.attributeGroups.map .attributeGroup ++ d.attributes.map .attribute

/-- A component is declared in a document, at some depth. -/
def Document.Holds (d : Document) (x : Catalog.Component) : Prop :=
  ∃ y ∈ d.components, ReflTransGen Catalog.Component.Part y x

/-- What a written component is declared as. -/
inductive DeclaredAs (ctx : Context) : Catalog.Component → Component → Prop
  | globalElement {head : Markup.ElementHead} {items : List Component} {e : Element}
    (h : declareGlobalElement ctx head items = .ok e) :
    DeclaredAs ctx (.element e) (.element head items)
  | localElement {head : Markup.ElementHead} {items : List Component} {occurs : Occurs}
    {e : Element} (h : declareLocalElement ctx head (inlineType ctx items) =
      .ok (.element occurs e)) : DeclaredAs ctx (.element e) (.element head items)
  | complexType {name : Option String} {mixed : Option Bool} {items : List Component}
    {t : ComplexType} (h : declareComplexType ctx name mixed items = .ok t) :
    DeclaredAs ctx (.complexType t) (.complexType name mixed items)
  | simpleType {name : Option String} {items : List Component} {t : SimpleType}
    (h : declareSimpleType ctx name items = .ok t) :
    DeclaredAs ctx (.simpleType t) (.simpleType name items)
  | particle {c : Component} {p : Particle} (h : particleOf ctx c = some (.ok p)) :
    DeclaredAs ctx (.particle p) c
  | modelGroup {k : Compositor} {occurs : Occurs} {items : List Component} {g : ModelGroup}
    (h : declareParticles ctx items = .ok g.particles) :
    DeclaredAs ctx (.modelGroup g) (.modelGroup k occurs items)
  | group {name ref : Option String} {occurs : Occurs} {items : List Component}
    {g : GroupDefinition} (h : declareGroup ctx name items = .ok g) :
    DeclaredAs ctx (.group g) (.group name ref occurs items)
  | globalAttribute {head : Markup.AttributeHead} {items : List Component} {a : Attribute}
    (h : declareGlobalAttribute ctx head items = .ok a) :
    DeclaredAs ctx (.attribute a) (.attribute head items)
  | localAttribute {head : Markup.AttributeHead} {items : List Component} {a : Attribute}
    {usage : Option Markup.Usage}
    (h : declareLocalAttribute ctx head items = .ok (.declared a usage)) :
    DeclaredAs ctx (.attribute a) (.attribute head items)
  | attributeItem {c : Component} {i : AttributeItem} (h : attributeItemOf ctx c = some (.ok i)) :
    DeclaredAs ctx (.attributeItem i) c
  | attributeGroup {name ref : Option String} {items : List Component} {g : AttributeGroup}
    (h : declareAttributeGroup ctx name items = .ok g) :
    DeclaredAs ctx (.attributeGroup g) (.attributeGroup name ref items)

section

variable {ctx : Context} {items : List Component}

/-! ### Simple types and attributes -/

/-- The first simple type among items is one of them. -/
theorem mem_of_firstSimpleType {t : SimpleType} (h : firstSimpleType ctx items = some (.ok t)) :
    ∃ c ∈ items, DeclaredAs ctx (.simpleType t) c := by
  have hcons : ∀ c rest, firstSimpleType ctx (c :: rest) =
      (simpleTypeAt ctx c).or (firstSimpleType ctx rest) := by
    intro c rest
    rw [firstSimpleType]
    cases simpleTypeAt ctx c <;> rfl
  obtain ⟨c, hc, hat⟩ := exists_of_first (by rw [firstSimpleType]) hcons h
  unfold simpleTypeAt at hat
  split at hat
  · exact ⟨_, hc, .simpleType (Option.some.inj hat)⟩
  · cases hat

/-- A restriction is one of a base that it refers to or else of a type that is written inside it. -/
theorem varietyOf_cases {name : Option QName} {c : Component} {t : SimpleType}
    (h : varietyOf ctx name c = some (.ok t)) :
    (∃ q, ctx.Resolves q ∧ t = .restriction name q) ∨
      (∃ u, firstSimpleType ctx c.items = some (.ok u) ∧ t = .refinement name u) ∨
      t = .list name ∨ t = .union name := by
  unfold varietyOf at h
  split at h
  · have h := Option.some.inj h
    split at h
    · obtain ⟨q, hq, heq⟩ := exists_of_map_eq_ok h
      exact .inl ⟨q, ⟨_, hq⟩, heq.symm⟩
    · split at h
      · next hfirst =>
        obtain ⟨u, rfl, heq⟩ := exists_of_map_eq_ok h
        exact .inr (.inl ⟨u, hfirst, heq.symm⟩)
      · cases h
  · cases h
    exact .inr (.inr (.inl rfl))
  · cases h
    exact .inr (.inr (.inr rfl))
  · cases h

/-- The simple type that another one is refined from is written inside a derivation. -/
theorem mem_of_refinement {name : Option String} {own : Option QName} {t : SimpleType}
    (h : declareSimpleType ctx name items = .ok (.refinement own t)) :
    ∃ c ∈ items, ∃ c' ∈ c.items, DeclaredAs ctx (.simpleType t) c' := by
  obtain ⟨c, hc, hvariety⟩ := mem_of_declareSimpleType h
  rcases varietyOf_cases hvariety with ⟨q, -, heq⟩ | ⟨u, hu, heq⟩ | heq | heq
  · cases heq
  · cases heq
    exact ⟨c, hc, mem_of_firstSimpleType hu⟩
  · cases heq
  · cases heq

/-- The type of an attribute is written inside it, or it is the name of one. -/
theorem mem_of_declareAttribute {name : QName} {head : Markup.AttributeHead} {a : Attribute}
    {t : SimpleType} (h : declareAttribute ctx name head items = .ok a)
    (ht : a.type = .anonymous t) : ∃ c ∈ items, DeclaredAs ctx (.simpleType t) c := by
  unfold declareAttribute at h
  split at h
  · obtain ⟨_, -, h⟩ := exists_of_bind_eq_ok h
    cases h
    cases ht
  · next inner _ hfirst =>
    obtain ⟨u, rfl, h⟩ := exists_of_bind_eq_ok h
    cases h
    cases ht
    exact mem_of_firstSimpleType hfirst
  · cases h
    cases ht

theorem exists_of_declareLocalAttribute {head : Markup.AttributeHead} {a : Attribute}
    {usage : Option Markup.Usage}
    (h : declareLocalAttribute ctx head items = .ok (.declared a usage)) :
    ∃ name, head.ref = none ∧ head.name = some name ∧
      declareAttribute ctx (ctx.localAttributeName name head.form) head items = .ok a := by
  unfold declareLocalAttribute at h
  split at h
  · obtain ⟨_, -, h⟩ := exists_of_bind_eq_ok h
    cases h
  · cases h
  · next name href hname =>
    obtain ⟨b, hb, h⟩ := exists_of_bind_eq_ok h
    cases h
    exact ⟨name, href, hname, eq_of_within hb⟩

theorem mem_of_declareAttributeItems {declared : List AttributeItem}
    (h : declareAttributeItems ctx items = .ok declared) {i : AttributeItem} (hi : i ∈ declared) :
    ∃ c ∈ items, attributeItemOf ctx c = some (.ok i) := by
  obtain ⟨r, hr, hri⟩ := exists_of_mem_right (forall₂_of_mapM h) hi
  obtain ⟨c, hc, hcr⟩ := List.mem_filterMap.mp hr
  have hri : r = .ok i := hri
  exact ⟨c, hc, hri ▸ hcr⟩

theorem exists_of_attributeItemOf_declared {c : Component} {a : Attribute}
    {usage : Option Markup.Usage} (h : attributeItemOf ctx c = some (.ok (.declared a usage))) :
    ∃ head items, c = .attribute head items ∧
      declareLocalAttribute ctx head items = .ok (.declared a usage) := by
  unfold attributeItemOf at h
  split at h
  · exact ⟨_, _, rfl, Option.some.inj h⟩
  · next ref _ =>
    cases ref with
    | none => cases h
    | some ref =>
      obtain ⟨_, -, h⟩ := exists_of_bind_eq_ok (Option.some.inj h)
      cases h
  · cases h

theorem mem_of_declareAttributeGroup {name : Option String} {g : AttributeGroup}
    (h : declareAttributeGroup ctx name items = .ok g) {i : AttributeItem} (hi : i ∈ g.items) :
    ∃ c ∈ items, attributeItemOf ctx c = some (.ok i) := by
  cases name with
  | none => cases h
  | some name =>
    obtain ⟨declared, hdeclared, h⟩ := exists_of_bind_eq_ok h
    cases h
    exact mem_of_declareAttributeItems (eq_of_within hdeclared) hi

/-! ### Elements and particles -/

theorem mem_of_inlineType {type : ElementType} (h : inlineType ctx items = some (.ok type)) :
    ∃ c ∈ items, inlineTypeOf ctx c = some (.ok type) := by
  refine exists_of_first (by rw [inlineType]) (fun c rest => ?_) h
  rw [inlineType]
  cases inlineTypeOf ctx c <;> rfl

theorem declaredAs_of_inline_complex {c : Component} {t : ComplexType}
    (h : inlineTypeOf ctx c = some (.ok (.complex t))) : DeclaredAs ctx (.complexType t) c := by
  unfold inlineTypeOf at h
  split at h
  · obtain ⟨u, hu, heq⟩ := exists_of_map_eq_ok (Option.some.inj h)
    cases heq
    exact .complexType hu
  · obtain ⟨u, -, heq⟩ := exists_of_map_eq_ok (Option.some.inj h)
    cases heq
  · cases h

theorem declaredAs_of_inline_simple {c : Component} {t : SimpleType}
    (h : inlineTypeOf ctx c = some (.ok (.simple t))) : DeclaredAs ctx (.simpleType t) c := by
  unfold inlineTypeOf at h
  split at h
  · obtain ⟨u, -, heq⟩ := exists_of_map_eq_ok (Option.some.inj h)
    cases heq
  · obtain ⟨u, hu, heq⟩ := exists_of_map_eq_ok (Option.some.inj h)
    cases heq
    exact .simpleType hu
  · cases h

/-- The type of an element is one that it refers to or the one that is written inside it, if any. -/
theorem type_of_declareElement {name : QName} {head : Markup.ElementHead}
    {inline : Option (Declared ElementType)} {e : Element}
    (h : declareElement ctx name head inline = .ok e) :
    (∃ q, ctx.Resolves q ∧ e.type = .named q) ∨ inline.getD (.ok .unspecified) = .ok e.type := by
  obtain ⟨type, htype, h⟩ := exists_of_bind_eq_ok h
  split at h
  · next written _ =>
    obtain ⟨named, hnamed, h⟩ := exists_of_bind_eq_ok h
    obtain ⟨q, hq, rfl⟩ := exists_of_map_eq_ok hnamed
    cases h
    exact .inl ⟨q, ⟨written, hq⟩, rfl⟩
  · cases h
    exact .inr htype

theorem exists_of_declareLocalElement {head : Markup.ElementHead}
    {inline : Option (Declared ElementType)} {occurs : Occurs} {e : Element}
    (h : declareLocalElement ctx head inline = .ok (.element occurs e)) :
    ∃ name, head.ref = none ∧ head.name = some name ∧
      declareElement ctx (ctx.localElementName name head.form) head inline = .ok e := by
  unfold declareLocalElement at h
  split at h
  · obtain ⟨_, -, h⟩ := exists_of_bind_eq_ok h
    cases h
  · cases h
  · next name href hname =>
    obtain ⟨b, hb, h⟩ := exists_of_bind_eq_ok h
    cases h
    exact ⟨name, href, hname, eq_of_within hb⟩

/-- Elements are declared by elements, and groups by model groups. -/
theorem exists_of_particleOf_element {c : Component} {occurs : Occurs} {e : Element}
    (h : particleOf ctx c = some (.ok (.element occurs e))) : ∃ head items,
    c = .element head items ∧
      declareLocalElement ctx head (inlineType ctx items) = .ok (.element occurs e) := by
  unfold particleOf at h
  split at h
  · exact ⟨_, _, rfl, Option.some.inj h⟩
  · next ref _ _ =>
    cases ref with
    | none => cases h
    | some ref =>
      obtain ⟨_, -, h⟩ := exists_of_bind_eq_ok (Option.some.inj h)
      cases h
  · obtain ⟨_, -, heq⟩ := exists_of_map_eq_ok (Option.some.inj h)
    cases heq
  · cases h
  · cases h

theorem exists_of_particleOf_group {c : Component} {g : ModelGroup}
    (h : particleOf ctx c = some (.ok (.group g))) : ∃ k occurs items,
    c = .modelGroup k occurs items ∧ declareParticles ctx items = .ok g.particles := by
  unfold particleOf at h
  split at h
  · have h := Option.some.inj h
    unfold declareLocalElement at h
    split at h
    · obtain ⟨_, -, h⟩ := exists_of_bind_eq_ok h
      cases h
    · cases h
    · obtain ⟨_, -, h⟩ := exists_of_bind_eq_ok h
      cases h
  · next ref _ _ =>
    cases ref with
    | none => cases h
    | some ref =>
      obtain ⟨_, -, h⟩ := exists_of_bind_eq_ok (Option.some.inj h)
      cases h
  · obtain ⟨ps, hps, heq⟩ := exists_of_map_eq_ok (Option.some.inj h)
    cases heq
    exact ⟨_, _, _, rfl, hps⟩
  · cases h
  · cases h

/-- The types inside an element are written inside it. -/
theorem mem_of_element_part {name : QName} {head : Markup.ElementHead} {e : Element}
    (h : declareElement ctx name head (inlineType ctx items) = .ok e) {y : Catalog.Component}
    (hy : (Catalog.Component.element e).Part y) : ∃ c ∈ items, DeclaredAs ctx y c := by
  have hinline : ∀ type, e.type = type → (∀ q, type ≠ .named q) → type ≠ .unspecified →
      inlineType ctx items = some (.ok type) := by
    rintro type rfl hnamed hunspecified
    rcases type_of_declareElement h with ⟨q, -, hq⟩ | htype
    · exact absurd hq (hnamed q)
    · cases hi : inlineType ctx items with
      | none =>
        rw [hi] at htype
        exact absurd (Except.ok.inj htype).symm hunspecified
      | some r =>
        rw [hi] at htype
        exact congrArg some htype
  cases hy with
  | complexOfElement ht =>
    obtain ⟨c, hc, htype⟩ := mem_of_inlineType (hinline _ ht nofun nofun)
    exact ⟨c, hc, declaredAs_of_inline_complex htype⟩
  | simpleOfElement ht =>
    obtain ⟨c, hc, htype⟩ := mem_of_inlineType (hinline _ ht nofun nofun)
    exact ⟨c, hc, declaredAs_of_inline_simple htype⟩

theorem mem_of_declareParticles {ps : List Particle} (h : declareParticles ctx items = .ok ps)
    {p : Particle} (hp : p ∈ ps) : ∃ c ∈ items, particleOf ctx c = some (.ok p) := by
  induction items generalizing ps with
  | nil =>
    rw [declareParticles] at h
    cases h
    cases hp
  | cons c rest ih =>
    rw [declareParticles] at h
    split at h
    · obtain ⟨c', hc', hdecl⟩ := ih h hp
      exact ⟨c', List.mem_cons_of_mem _ hc', hdecl⟩
    · next r hr =>
      obtain ⟨q, hq, h⟩ := exists_of_bind_eq_ok h
      obtain ⟨qs, hqs, h⟩ := exists_of_bind_eq_ok h
      cases h
      rcases List.mem_cons.mp hp with rfl | hp
      · exact ⟨c, List.mem_cons_self, hr.trans (congrArg some hq)⟩
      · obtain ⟨c', hc', hdecl⟩ := ih hqs hp
        exact ⟨c', List.mem_cons_of_mem _ hc', hdecl⟩

theorem mem_of_firstModelGroup {g : ModelGroup} (h : firstModelGroup ctx items = some (.ok g)) :
    ∃ c ∈ items, DeclaredAs ctx (.modelGroup g) c := by
  induction items with
  | nil =>
    rw [firstModelGroup] at h
    cases h
  | cons c rest ih =>
    cases c with
    | modelGroup k occurs inner =>
      obtain ⟨ps, hps, rfl⟩ := exists_of_map_eq_ok (Option.some.inj h)
      exact ⟨_, List.mem_cons_self, .modelGroup hps⟩
    | _ =>
      obtain ⟨c', hc', hdecl⟩ := ih h
      exact ⟨c', List.mem_cons_of_mem _ hc', hdecl⟩

theorem mem_of_declareGroup {name : Option String} {d : GroupDefinition}
    (h : declareGroup ctx name items = .ok d) {g : ModelGroup} (hg : d.modelGroup = some g) :
    ∃ c ∈ items, DeclaredAs ctx (.modelGroup g) c := by
  cases name with
  | none => cases h
  | some name =>
    simp only [declareGroup] at h
    split at h
    · cases h
      cases hg
    · next r hr =>
      obtain ⟨g', hg', h⟩ := exists_of_bind_eq_ok h
      cases h
      cases hg
      exact mem_of_firstModelGroup (hr.trans (congrArg some (eq_of_within hg')))

end

end Schema

end SchemaShapes
