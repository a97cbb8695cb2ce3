import Mathlib.Data.List.Forall2
import SchemaShapes.Proofs.Catalog.Components
import SchemaShapes.Proofs.Catalog.Views

/-! Catalogs that agree. Two catalogs agree on references if these mean equal components in both, and
so do all references of these components. What they mean need not stand at the same place: documents
may come in another order, or declare more. A place is still the same in both if the turns from its
root are and the root is what one reference means. Views of components at such places are alike. -/
namespace SchemaShapes.Catalog

open Relation (ReflTransGen)
open Schema

/-! ### Meanings of references -/

/-- The component that a reference means. Builtin types are declared nowhere, and a complex type
comes before a simple one. -/
def meaning (c : Catalog) (r : Reference) : Option Component :=
  match r.kind with
  | .element => (c.findElement r.name).map (.element ·.value)
  | .type =>
    if r.name = anyTypeName ∨ (TypeCode.builtin? r.name).isSome then none
    else ((c.findComplexType r.name).map (.complexType ·.value)).or
      ((c.findSimpleType r.name).map .simpleType)
  | .simpleType =>
    if (TypeCode.builtin? r.name).isSome then none
    else (c.findSimpleType r.name).map .simpleType
  | .group => (c.findGroup r.name).map (.group ·.value)
  | .attributeGroup => (c.findAttributeGroup r.name).map .attributeGroup
  | .attribute => (c.findAttribute r.name).map .attribute

/-- The second reference is one of what the first one means, at any depth. -/
def RefersTo (c : Catalog) (r r' : Reference) : Prop :=
  ∃ x, c.meaning r = some x ∧ r' ∈ x.references

/-- All references of a component are among the given ones. -/
def Component.Covered (R : Reference → Prop) (x : Component) : Prop := ∀ r ∈ x.references, R r

theorem Component.Covered.part {R : Reference → Prop} {x y : Component} (h : x.Covered R)
    (hp : x.Part y) : y.Covered R :=
  fun r hr => h r (references_subset_of_part hp hr)

theorem Component.Covered.of_uses {R : Reference → Prop} {x : Component} (h : x.Covered R)
    {r : Reference} (hr : x.Uses r) : R r :=
  h r hr.mem_references

/-! ### Nodes that references mean -/

/-- The node that a reference means, if it means one. -/
def node (c : Catalog) (r : Reference) : Option Node :=
  match r.kind with
  | .element => (c.findElement r.name).map .element
  | .type => (c.complexNamed r.name).map .complexType
  | .group => (c.findGroup r.name).map .group
  | _ => none

/-- The reference by which a node at the top level is meant. -/
def Node.reference? : Node → Option Reference
  | .element e => some ⟨.element, e.value.name⟩
  | .complexType t => t.value.name.map fun q => ⟨.type, q⟩
  | .modelGroup _ => none
  | .group d => some ⟨.group, d.value.name⟩

variable {c c' : Catalog} {R : Reference → Prop}

theorem topLevel_of_node {r : Reference} {n : Node} (h : c.node r = some n) :
    c.TopLevel n ∧ n.reference? = some r := by
  obtain ⟨kind, q⟩ := r
  cases kind with
  | element =>
    obtain ⟨e, he, rfl⟩ := Option.map_eq_some_iff.mp h
    exact ⟨topLevel_of_findElement he, by rw [Node.reference?, (findElement_eq_some he).2]⟩
  | type =>
    obtain ⟨t, ht, rfl⟩ := Option.map_eq_some_iff.mp h
    refine ⟨topLevel_of_complexNamed ht, ?_⟩
    have hname : t.value.name = some q := by
      unfold complexNamed at ht
      split_ifs at ht with hany
      · cases ht
        exact congrArg some hany.symm
      · exact (findComplexType_eq_some ht).2
    rw [Node.reference?, hname, Option.map_some]
  | group =>
    obtain ⟨d, hd, rfl⟩ := Option.map_eq_some_iff.mp h
    exact ⟨topLevel_of_findGroup hd, by rw [Node.reference?, (findGroup_eq_some hd).2]⟩
  | simpleType | attributeGroup | «attribute» => cases h

/-- One reference means what stands at the two roots. -/
def SameRoot (c c' : Catalog) (root root' : Root) : Prop :=
  ∃ r n n', c.node r = some n ∧ c'.node r = some n' ∧ n.place = .top root ∧ n'.place = .top root'

theorem SameRoot.symm {root root' : Root} (h : SameRoot c c' root root') :
    SameRoot c' c root' root := by
  obtain ⟨r, n, n', hn, hn', hroot, hroot'⟩ := h
  exact ⟨r, n', n, hn', hn, hroot', hroot⟩

/-- What stands at a root has the name by which it is meant, so no other reference means it. -/
theorem SameRoot.unique {root root₁ root₂ : Root} (h₁ : SameRoot c c' root root₁)
    (h₂ : SameRoot c c' root root₂) : root₁ = root₂ := by
  obtain ⟨r, n, n', hn, hn', hroot, hroot₁⟩ := h₁
  obtain ⟨l, m, m', hm, hm', hroot', hroot₂⟩ := h₂
  obtain ⟨hntop, hr⟩ := topLevel_of_node hn
  obtain ⟨hmtop, hl⟩ := topLevel_of_node hm
  obtain rfl := hntop.eq_of_place hmtop (hroot.trans hroot'.symm)
  obtain rfl := Option.some.inj (hr.symm.trans hl)
  obtain rfl := Option.some.inj (hn'.symm.trans hm')
  simpa [Place.top] using hroot₁.symm.trans hroot₂

/-- The same turns lead to two places from roots that are the same. -/
structure SamePlace (c c' : Catalog) (p p' : Place) : Prop where
  root : SameRoot c c' p.root p'.root
  turns : p.turns = p'.turns

theorem SamePlace.symm {p p' : Place} (h : SamePlace c c' p p') : SamePlace c' c p' p :=
  ⟨h.root.symm, h.turns.symm⟩

theorem SamePlace.part {p p' : Place} (h : SamePlace c c' p p') (i : ℕ) :
    SamePlace c c' (p.part i) (p'.part i) :=
  ⟨h.root, congrArg (i :: ·) h.turns⟩

theorem SamePlace.unique {p p₁ p₂ : Place} (h₁ : SamePlace c c' p p₁) (h₂ : SamePlace c c' p p₂) :
    p₁ = p₂ := by
  obtain ⟨root₁, turns₁⟩ := p₁
  obtain ⟨root₂, turns₂⟩ := p₂
  obtain rfl : root₁ = root₂ := h₁.root.unique h₂.root
  obtain rfl : turns₁ = turns₂ := h₁.turns.symm.trans h₂.turns
  rfl

theorem samePlace_of_node (r : Reference) (n n' : Node) (h : c.node r = some n)
    (h' : c'.node r = some n') : SamePlace c c' n.place n'.place := by
  obtain ⟨root, hroot⟩ := (topLevel_of_node h).1.place
  obtain ⟨root', hroot'⟩ := (topLevel_of_node h').1.place
  rw [hroot, hroot']
  exact ⟨⟨r, n, n', h, h', hroot, hroot'⟩, rfl⟩

/-! ### Twins -/

/-- One component at the same place of both catalogs, with its references among the given ones. -/
structure Twins (c c' : Catalog) (R : Reference → Prop) {α : Type} (kind : α → Component)
    (x x' : Located α) : Prop where
  value : x.value = x'.value
  place : SamePlace c c' x.place x'.place
  covered : (kind x.value).Covered R

theorem Twins.symm {α : Type} {kind : α → Component} {x x' : Located α}
    (h : Twins c c' R kind x x') : Twins c' c R kind x' x :=
  ⟨h.value.symm, h.place.symm, h.value ▸ h.covered⟩

/-- Two types are the same simple one, are complex and related, or are both unknown. -/
inductive TypesAlike (P : Located ComplexType → Located ComplexType → Prop) :
    DeclaredType → DeclaredType → Prop
  | simple (code : TypeCode) : TypesAlike P (.simple code) (.simple code)
  | complex {t t' : Located ComplexType} (h : P t t') : TypesAlike P (.complex t) (.complex t')
  | unknown : TypesAlike P .unknown .unknown

theorem twins_anyType : Twins c c' R .complexType ⟨.top .anyType, anyType⟩
    ⟨.top .anyType, anyType⟩ where
  value := rfl
  place := samePlace_of_node ⟨.type, anyTypeName⟩ (.complexType _) (.complexType _) rfl rfl
  covered := by
    intro r hr
    simp [Component.references, anyType, ComplexType.references, Content.references,
      referencesInside, Particle.references, ModelGroup.references, referencesOf] at hr

/-! ### Agreement -/

/-- References mean equal components in two catalogs without faults, and so does whatever these
refer to. -/
structure Agreement (c c' : Catalog) (R : Reference → Prop) : Prop where
  fault : c.fault = none
  fault' : c'.fault = none
  meaning_eq : ∀ r, R r → c.meaning r = c'.meaning r
  covered : ∀ r x, R r → c.meaning r = some x → x.Covered R

namespace Agreement

theorem symm (h : Agreement c c' R) : Agreement c' c R where
  fault := h.fault'
  fault' := h.fault
  meaning_eq r hr := (h.meaning_eq r hr).symm
  covered r x hr hx := h.covered r x hr ((h.meaning_eq r hr).trans hx)

/-- It is enough to look at what is in reach of one reference. -/
theorem of_reach (hf : c.fault = none) (hf' : c'.fault = none) {r₀ : Reference}
    (h : ∀ r, ReflTransGen c.RefersTo r₀ r → c.meaning r = c'.meaning r) :
    Agreement c c' (ReflTransGen c.RefersTo r₀) where
  fault := hf
  fault' := hf'
  meaning_eq := h
  covered _ x hr hx _ hr' := hr.tail ⟨x, hx, hr'⟩

/-! ### Lookups -/

theorem twins_of_map_eq {α : Type} {kind : α → Component} (hkind : ∀ a b, kind a = kind b → a = b)
    {o o' : Option (Located α)} (heq : o.map (kind ·.value) = o'.map (kind ·.value))
    (hplace : ∀ x x', o = some x → o' = some x' → SamePlace c c' x.place x'.place)
    (hcovered : ∀ x, o = some x → (kind x.value).Covered R) :
    Option.Rel (Twins c c' R kind) o o' := by
  cases o with
  | none =>
    cases o' with
    | none => exact .none
    | some x' => cases heq
  | some x =>
    cases o' with
    | none => cases heq
    | some x' => exact .some ⟨hkind _ _ (Option.some.inj heq), hplace x x' rfl rfl, hcovered x rfl⟩

variable (h : Agreement c c' R)

include h

theorem findElement {q : QName} (hq : R ⟨.element, q⟩) :
    Option.Rel (Twins c c' R .element) (c.findElement q) (c'.findElement q) := by
  refine twins_of_map_eq (fun _ _ => Component.element.inj) (h.meaning_eq _ hq)
    (fun e e' he he' => ?_) fun e he => h.covered _ _ hq ?_
  · exact samePlace_of_node ⟨.element, q⟩ (.element e) (.element e')
      (by rw [node, he, Option.map_some]) (by rw [node, he', Option.map_some])
  · rw [meaning, he, Option.map_some]

theorem findGroup {q : QName} (hq : R ⟨.group, q⟩) :
    Option.Rel (Twins c c' R .group) (c.findGroup q) (c'.findGroup q) := by
  refine twins_of_map_eq (fun _ _ => Component.group.inj) (h.meaning_eq _ hq)
    (fun d d' hd hd' => ?_) fun d hd => h.covered _ _ hq ?_
  · exact samePlace_of_node ⟨.group, q⟩ (.group d) (.group d')
      (by rw [node, hd, Option.map_some]) (by rw [node, hd', Option.map_some])
  · rw [meaning, hd, Option.map_some]

theorem findAttribute_eq {q : QName} (hq : R ⟨.attribute, q⟩) :
    c.findAttribute q = c'.findAttribute q :=
  Option.map_injective (fun _ _ => Component.attribute.inj) (h.meaning_eq _ hq)

theorem findAttributeGroup_eq {q : QName} (hq : R ⟨.attributeGroup, q⟩) :
    c.findAttributeGroup q = c'.findAttributeGroup q :=
  Option.map_injective (fun _ _ => Component.attributeGroup.inj) (h.meaning_eq _ hq)

/-! ### Simple types -/

theorem namedSimpleCode_eq {q : QName} (hq : R ⟨.simpleType, q⟩)
    (ht : ∀ t, TypeCode.builtin? q = none → c.findSimpleType q = some t →
      (Component.simpleType t).Covered R → c.simpleTypeCode t = c'.simpleTypeCode t) :
    c.namedSimpleCode q = c'.namedSimpleCode q := by
  rw [Catalog.namedSimpleCode_eq h.fault, Catalog.namedSimpleCode_eq h.fault']
  cases hcode : TypeCode.builtin? q with
  | some code => rfl
  | none =>
    have hmeaning := h.meaning_eq _ hq
    simp only [meaning, hcode, Option.isSome_none, Bool.false_eq_true, if_false] at hmeaning
    rw [← Option.map_injective (fun _ _ => Component.simpleType.inj) hmeaning]
    cases hfind : c.findSimpleType q with
    | none => rfl
    | some t => exact ht t hcode hfind (h.covered _ _ hq (by simp [meaning, hcode, hfind]))

theorem simpleTypeCode_eq {t : SimpleType} (ht : (Component.simpleType t).Covered R) :
    c.simpleTypeCode t = c'.simpleTypeCode t := by
  induction t using (restrictedFrom_wellFounded h.fault).induction with
  | _ t ih =>
    rw [Catalog.simpleTypeCode_eq, Catalog.simpleTypeCode_eq]
    cases t with
    | restriction name q =>
      exact h.namedSimpleCode_eq (ht.of_uses .baseOfSimple) fun u hq hu hcovered =>
        ih u (.named hq hu) hcovered
    | refinement name u => exact ih u .inside (ht.part .refinement)
    | list name => rfl
    | union name => rfl

theorem attributeTypeCode_eq {a : Attribute} (ha : (Component.attribute a).Covered R) :
    c.attributeTypeCode a = c'.attributeTypeCode a := by
  unfold attributeTypeCode
  split
  · next q hq =>
    exact h.namedSimpleCode_eq (ha.of_uses (.typeOfAttribute hq)) fun t _ _ ht =>
      h.simpleTypeCode_eq ht
  · next t ht => exact h.simpleTypeCode_eq (ha.part (.simpleOfAttribute ht))
  · rfl

/-! ### Attributes -/

theorem usesOfItems_eq_of_groups {items : List AttributeItem}
    (hitems : ∀ i ∈ items, (Component.attributeItem i).Covered R)
    (hgroups : ∀ q g, .group q ∈ items → c.findAttributeGroup q = some g →
      c.usesOfItems g.items = c'.usesOfItems g.items) :
    c.usesOfItems items = c'.usesOfItems items := by
  rw [Catalog.usesOfItems_eq h.fault, Catalog.usesOfItems_eq h.fault']
  refine List.flatMap_congr fun i hi => ?_
  have hcovered := hitems i hi
  cases i with
  | declared a usage =>
    rw [usesOfItem, usesOfItem, useOf, useOf, h.attributeTypeCode_eq (hcovered.part .declared)]
  | reference q usage =>
    have hq : R ⟨.attribute, q⟩ := hcovered.of_uses .attributeRef
    rw [usesOfItem, usesOfItem, ← h.findAttribute_eq hq]
    cases ha : c.findAttribute q with
    | none => rfl
    | some a =>
      have ha' : (Component.attribute a).Covered R :=
        h.covered _ _ hq (by rw [meaning, ha, Option.map_some])
      rw [Option.map_some, Option.map_some, useOf, useOf, h.attributeTypeCode_eq ha']
  | group q =>
    rw [usesOfItem, usesOfItem, ← h.findAttributeGroup_eq (hcovered.of_uses .groupOfItems)]
    cases hg : c.findAttributeGroup q with
    | none => rfl
    | some g => exact hgroups q g hi hg

theorem usesOfItems_eq_of_group {g : AttributeGroup}
    (hg : (Component.attributeGroup g).Covered R) :
    c.usesOfItems g.items = c'.usesOfItems g.items := by
  induction g using (brings_wellFounded h.fault).induction with
  | _ g ih =>
    refine h.usesOfItems_eq_of_groups (fun i hi => hg.part (.itemOfGroup hi)) fun q g' hq hg' => ?_
    have hr : R ⟨.attributeGroup, q⟩ := (hg.part (.itemOfGroup hq)).of_uses .groupOfItems
    exact ih g' ⟨q, hq, hg'⟩ (h.covered _ _ hr (by rw [meaning, hg', Option.map_some]))

theorem usesOfItems_eq {t : ComplexType} (ht : (Component.complexType t).Covered R) :
    c.usesOfItems t.attributes = c'.usesOfItems t.attributes := by
  refine h.usesOfItems_eq_of_groups (fun i hi => ht.part (.itemOfType hi)) fun q g hq hg => ?_
  have hr : R ⟨.attributeGroup, q⟩ := (ht.part (.itemOfType hq)).of_uses .groupOfItems
  exact h.usesOfItems_eq_of_group (h.covered _ _ hr (by rw [meaning, hg, Option.map_some]))

/-! ### Types by name -/

theorem namedType {q : QName} (hq : R ⟨.type, q⟩) :
    TypesAlike (Twins c c' R .complexType) (c.namedType q) (c'.namedType q) := by
  unfold Catalog.namedType complexNamed
  by_cases hany : q = anyTypeName
  · rw [if_pos hany, if_pos hany]
    exact .complex twins_anyType
  · rw [if_neg hany, if_neg hany]
    cases hcode : TypeCode.builtin? q with
    | some code => exact .simple code
    | none =>
      have hmeaning := h.meaning_eq _ hq
      simp only [meaning, hany, hcode, Option.isSome_none, Bool.false_eq_true, or_false,
        if_false] at hmeaning ⊢
      cases ht : c.findComplexType q with
      | some t =>
        cases ht' : c'.findComplexType q with
        | some t' =>
          simp only [ht, ht', Option.map_some, Option.some_or, Option.some.injEq,
            Component.complexType.injEq] at hmeaning
          refine .complex ⟨hmeaning, ?_, h.covered _ _ hq (by simp [meaning, hany, hcode, ht])⟩
          exact samePlace_of_node ⟨.type, q⟩ (.complexType t) (.complexType t')
            (by simp [node, complexNamed, hany, hcode, ht])
            (by simp [node, complexNamed, hany, hcode, ht'])
        | none =>
          -- A complex type is no simple one.
          cases hs : c'.findSimpleType q <;> simp [ht, ht', hs] at hmeaning
      | none =>
        cases ht' : c'.findComplexType q with
        | some t' => cases hs : c.findSimpleType q <;> simp [ht, ht', hs] at hmeaning
        | none =>
          simp only [ht, ht', Option.map_none, Option.none_or] at hmeaning
          rw [← Option.map_injective (fun _ _ => Component.simpleType.inj) hmeaning]
          cases hs : c.findSimpleType q with
          | none => exact .unknown
          | some t =>
            have hcovered : (Component.simpleType t).Covered R :=
              h.covered _ _ hq (by simp [meaning, hany, hcode, ht, hs])
            simp only [h.simpleTypeCode_eq hcovered]
            exact .simple _

theorem elementType {e e' : Located Element} (he : Twins c c' R .element e e') :
    TypesAlike (Twins c c' R .complexType) (c.elementType e) (c'.elementType e') := by
  obtain ⟨place, e⟩ := e
  obtain ⟨place', e'⟩ := e'
  obtain ⟨rfl, hplace, hcovered⟩ := he
  unfold Catalog.elementType
  dsimp only
  split
  · next q hq => exact h.namedType (hcovered.of_uses (.typeOfElement hq))
  · next t ht => exact .complex ⟨rfl, hplace.part 0, hcovered.part (.complexOfElement ht)⟩
  · next t ht =>
    rw [h.simpleTypeCode_eq (hcovered.part (.simpleOfElement ht))]
    exact .simple _
  · exact .complex twins_anyType

end Agreement

/-! ### Views of complex types -/

/-- The views of a complex type are alike in both catalogs. -/
structure SameViews (c c' : Catalog) (R : Reference → Prop) (t t' : Located ComplexType) :
    Prop where
  content : List.Forall₂ (Twins c c' R .particle) (c.content t) (c'.content t')
  contentType : c.contentType t = c'.contentType t'
  textCode : c.textCode t = c'.textCode t'
  attributeUses : c.attributeUses t = c'.attributeUses t'

theorem Twins.ownContent {t t' : Located ComplexType} (h : Twins c c' R .complexType t t') :
    List.Forall₂ (Twins c c' R .particle) (ownContent t) (ownContent t') := by
  obtain ⟨place, t⟩ := t
  obtain ⟨place', t'⟩ := t'
  obtain ⟨rfl, hplace, hcovered⟩ := h
  unfold Catalog.ownContent
  cases hp : t.ownParticle.filter (!·.isEmpty) with
  | none => exact .nil
  | some p =>
    have hown := (Option.filter_eq_some_iff.mp hp).1
    exact .cons ⟨rfl, hplace.part 0, hcovered.part (.particleOfType hown)⟩ .nil

theorem contentTypeOfParticles_congr {mixed : Bool} {ps ps' : List (Located Particle)}
    (h : List.Forall₂ (Twins c c' R .particle) ps ps') :
    contentTypeOfParticles mixed ps = contentTypeOfParticles mixed ps' := by
  cases h <;> cases mixed <;> rfl

section

variable {t t' : Located ComplexType} (h : Agreement c c' R) (ht : Twins c c' R .complexType t t')
  (hbase : ∀ base, t.value.base = some base →
    TypesAlike (SameViews c c' R) (c.namedType base) (c'.namedType base))

include h ht hbase

theorem content_of_base :
    List.Forall₂ (Twins c c' R .particle) (c.content t) (c'.content t') := by
  rw [content_eq h.fault, content_eq h.fault', ← ht.value]
  split
  · exact .nil
  · next base particle hc =>
    refine List.rel_append ?_ ht.ownContent
    have hsame := hbase base (base_of_complex hc).1
    generalize c.namedType base = type, c'.namedType base = type' at hsame
    cases hsame with
    | complex hu => exact hu.content
    | simple | unknown => exact .nil
  · exact ht.ownContent

theorem contentType_of_base : c.contentType t = c'.contentType t' := by
  have hparticles : contentTypeOfParticles t.value.mixed (c.content t) =
      contentTypeOfParticles t.value.mixed (c'.content t') :=
    contentTypeOfParticles_congr (content_of_base h ht hbase)
  rw [contentType_eq h.fault, contentType_eq h.fault', ← ht.value, hparticles]
  split
  · next base _ hc =>
    have hsame := hbase base (base_of_simple hc).1
    generalize c.namedType base = type, c'.namedType base = type' at hsame
    cases hsame with
    | complex hu => simp only [hu.contentType]
    | simple | unknown => rfl
  · next base _ hc =>
    have hsame := hbase base (base_of_complex hc).1
    generalize c.namedType base = type, c'.namedType base = type' at hsame
    cases hsame <;> rfl
  · rfl

theorem textCode_of_base : c.textCode t = c'.textCode t' := by
  rw [textCode_eq h.fault, textCode_eq h.fault', ← ht.value]
  split
  · next type hc => exact h.simpleTypeCode_eq (ht.covered.part (.simpleOfContent hc))
  · next base hc =>
    have hsame := hbase base (base_of_simple hc).1
    generalize c.namedType base = type, c'.namedType base = type' at hsame
    cases hsame with
    | complex hu => exact hu.textCode
    | simple | unknown => rfl
  · rfl

theorem attributeUses_of_base : c.attributeUses t = c'.attributeUses t' := by
  rw [attributeUses_eq h.fault, attributeUses_eq h.fault', ← ht.value, h.usesOfItems_eq ht.covered]
  congr 1
  cases hb : t.value.base with
  | none => rfl
  | some base =>
    have hsame := hbase base hb
    simp only [Option.map_some]
    generalize c.namedType base = type, c'.namedType base = type' at hsame
    cases hsame with
    | complex hu => exact hu.attributeUses
    | simple | unknown => rfl

end

/-- The views of a type are made from those of its base, which is the same in both catalogs. -/
theorem Agreement.sameViews (h : Agreement c c' R) {t t' : Located ComplexType}
    (ht : Twins c c' R .complexType t t') : SameViews c c' R t t' := by
  induction t using (derivesFrom_wellFounded h.fault).induction generalizing t' with
  | _ t ih =>
    have hbase : ∀ base, t.value.base = some base →
        TypesAlike (SameViews c c' R) (c.namedType base) (c'.namedType base) := by
      intro base hb
      have htwins := h.namedType (ht.covered.of_uses (.baseOfComplex hb))
      generalize hn : c.namedType base = type, c'.namedType base = type' at htwins
      cases htwins with
      | simple code => exact .simple code
      | complex hu => exact .complex (ih _ ⟨base, hb, namedType_eq_complex_iff.mp hn⟩ hu)
      | unknown => exact .unknown
    exact ⟨content_of_base h ht hbase, contentType_of_base h ht hbase,
      textCode_of_base h ht hbase, attributeUses_of_base h ht hbase⟩

end SchemaShapes.Catalog
