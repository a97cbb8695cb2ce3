import SchemaShapes.Proofs.Catalog.Components
import SchemaShapes.Proofs.Catalog.Views
import SchemaShapes.Proofs.Keyed

/-! Attributes of complex types. The items of a type bring uses, those of the groups that they refer
to among them, behind the uses that the base of the type brings. Every reference on the way is to
something that is there, so no item is passed over, and a type has each use that is brought unless
a later one is of the same attribute. -/
namespace SchemaShapes.Catalog

open Schema

variable {c : Catalog}

/-- The uses that items bring, where every reference is to something that is there. -/
inductive ItemsBring (c : Catalog) : List AttributeItem → List AttributeUse → Prop
  | nil : ItemsBring c [] []
  | declared {a : Attribute} {usage : Option Markup.Usage} {items : List AttributeItem}
    {uses : List AttributeUse} (h : ItemsBring c items uses) :
    ItemsBring c (.declared a usage :: items) (c.useOf usage a :: uses)
  | reference {q : QName} {usage : Option Markup.Usage} {a : Attribute}
    {items : List AttributeItem} {uses : List AttributeUse} (ha : c.findAttribute q = some a)
    (h : ItemsBring c items uses) :
    ItemsBring c (.reference q usage :: items) (c.useOf usage a :: uses)
  | group {q : QName} {g : AttributeGroup} {items : List AttributeItem}
    {inner uses : List AttributeUse} (hg : c.findAttributeGroup q = some g)
    (hinner : ItemsBring c g.items inner) (h : ItemsBring c items uses) :
    ItemsBring c (.group q :: items) (inner ++ uses)

/-- The uses that a complex type brings, those of its base in front of those of its items. A base
is a simple type, which brings none, or a complex one. -/
inductive TypeBrings (c : Catalog) : Located ComplexType → List AttributeUse → Prop
  | underived {t : Located ComplexType} {uses : List AttributeUse} (hb : t.value.base = none)
    (h : ItemsBring c t.value.attributes uses) : TypeBrings c t uses
  | simple {t : Located ComplexType} {base : QName} {code : TypeCode} {uses : List AttributeUse}
    (hb : t.value.base = some base) (hs : c.namedType base = .simple code)
    (h : ItemsBring c t.value.attributes uses) : TypeBrings c t uses
  | complex {t u : Located ComplexType} {base : QName} {inner uses : List AttributeUse}
    (hb : t.value.base = some base) (hu : c.namedType base = .complex u)
    (hinner : TypeBrings c u inner) (h : ItemsBring c t.value.attributes uses) :
    TypeBrings c t (inner ++ uses)

theorem ItemsBring.unique {items : List AttributeItem} {uses uses' : List AttributeUse}
    (h : c.ItemsBring items uses) (h' : c.ItemsBring items uses') : uses' = uses := by
  induction h generalizing uses' with
  | nil =>
    cases h'
    rfl
  | declared _ ih =>
    cases h' with
    | declared h' => rw [ih h']
  | reference ha _ ih =>
    cases h' with
    | reference ha' h' =>
      obtain rfl := Option.some.inj (ha.symm.trans ha')
      rw [ih h']
  | group hg _ _ ihinner ih =>
    cases h' with
    | group hg' hinner' h' =>
      obtain rfl := Option.some.inj (hg.symm.trans hg')
      rw [ihinner hinner', ih h']

/-- There is one sequence of uses that a complex type brings. -/
theorem TypeBrings.unique {t : Located ComplexType} {uses uses' : List AttributeUse}
    (h : c.TypeBrings t uses) (h' : c.TypeBrings t uses') : uses' = uses := by
  induction h generalizing uses' with
  | underived hb h =>
    cases h' with
    | underived _ h' => exact h.unique h'
    | simple hb' _ _ | complex hb' _ _ _ => cases hb.symm.trans hb'
  | simple hb hs h =>
    cases h' with
    | underived hb' _ => cases hb'.symm.trans hb
    | simple _ _ h' => exact h.unique h'
    | complex hb' hu' _ _ =>
      obtain rfl := Option.some.inj (hb.symm.trans hb')
      cases hs.symm.trans hu'
  | complex hb hu _ h ih =>
    cases h' with
    | underived hb' _ => cases hb'.symm.trans hb
    | simple hb' hs' _ =>
      obtain rfl := Option.some.inj (hb.symm.trans hb')
      cases hs'.symm.trans hu
    | complex hb' hu' hinner' h' =>
      obtain rfl := Option.some.inj (hb.symm.trans hb')
      obtain rfl := DeclaredType.complex.inj (hu.symm.trans hu')
      rw [ih hinner', h.unique h']

/-- Items bring the uses that are listed for them if the groups that they refer to do. -/
theorem itemsBring_of_groups (hf : c.fault = none) {items : List AttributeItem}
    (hi : ∀ i ∈ items, c.Holds (.attributeItem i))
    (hg : ∀ q g, .group q ∈ items → c.findAttributeGroup q = some g →
      c.ItemsBring g.items (c.usesOfItems g.items)) :
    c.ItemsBring items (items.flatMap c.usesOfItem) := by
  induction items with
  | nil => exact .nil
  | cons i items ih =>
    have hrest := ih (fun j hj => hi j (by simp [hj])) fun q g hq => hg q g (by simp [hq])
    have hheld := hi i (by simp)
    rw [List.flatMap_cons]
    cases i with
    | declared a usage => exact .declared hrest
    | reference q usage =>
      have hres : (c.findAttribute q).isSome := hheld.resolves hf .attributeRef
      obtain ⟨a, ha⟩ := Option.isSome_iff_exists.mp hres
      rw [usesOfItem, ha]
      exact .reference ha hrest
    | group q =>
      have hres : (c.findAttributeGroup q).isSome := hheld.resolves hf .groupOfItems
      obtain ⟨g, hq⟩ := Option.isSome_iff_exists.mp hres
      rw [usesOfItem, hq]
      exact .group hq (hg q g (by simp) hq) hrest

theorem itemsBring_of_group (hf : c.fault = none) {q : QName} {g : AttributeGroup}
    (hq : c.findAttributeGroup q = some g) : c.ItemsBring g.items (c.usesOfItems g.items) := by
  induction g using (brings_wellFounded hf).induction generalizing q with
  | _ g ih =>
    rw [usesOfItems_eq hf]
    refine itemsBring_of_groups hf (fun i hi => ?_) fun l g' hl hg' => ih g' ⟨l, hl, hg'⟩ hg'
    exact .part (.attributeGroup (findAttributeGroup_eq_some hq).1) (.itemOfGroup hi)

/-- The items of a complex type bring the uses that are listed for them. -/
theorem itemsBring_of_type (hf : c.fault = none) {t : Located ComplexType}
    (ht : .complexType t ∈ c.nodes) :
    c.ItemsBring t.value.attributes (c.usesOfItems t.value.attributes) := by
  rw [usesOfItems_eq hf]
  refine itemsBring_of_groups hf (fun i hi => ?_) fun q g _ hg => itemsBring_of_group hf hg
  exact .part (holds_of_mem_nodes ht) (.itemOfType hi)

/-- A complex type has the last use of each attribute that it brings. -/
theorem exists_typeBrings (hf : c.fault = none) {t : Located ComplexType}
    (ht : .complexType t ∈ c.nodes) :
    ∃ uses, c.TypeBrings t uses ∧ c.attributeUses t = Keyed.ofList AttributeUse.name uses := by
  induction t using (derivesFrom_wellFounded hf).induction with
  | _ t ih =>
    have hitems := itemsBring_of_type hf ht
    rw [attributeUses_eq hf]
    cases hb : t.value.base with
    | none => exact ⟨_, .underived hb hitems, rfl⟩
    | some base =>
      rw [Option.map_some]
      cases hn : c.namedType base with
      | simple code => exact ⟨_, .simple hb hn hitems, rfl⟩
      | complex u =>
        have hu := namedType_eq_complex_iff.mp hn
        obtain ⟨inner, hinner, heq⟩ := ih u ⟨base, hb, hu⟩ (mem_nodes_of_edge ht (.base hb hu))
        refine ⟨_, .complex hb hn hinner hitems, ?_⟩
        simp only [heq]
        exact (Keyed.putAll_append _ _ _ _).symm
      | unknown =>
        have hres : c.namedType base ≠ .unknown :=
          (holds_of_mem_nodes ht).resolves hf (.baseOfComplex hb)
        exact absurd hn hres

end SchemaShapes.Catalog
