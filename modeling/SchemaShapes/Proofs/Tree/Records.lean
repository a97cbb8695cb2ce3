import SchemaShapes.Proofs.Catalog.Lookup
import SchemaShapes.Proofs.Name
import SchemaShapes.Proofs.Shape.WellFormed
import SchemaShapes.Proofs.Traversal
import SchemaShapes.Proofs.Tree.Elements

/-! Records of elements. The attributes of each element in a tree are the uses of a complex type, one
for each name, and their names are names of attributes that are declared. If the names of declared
attributes are told apart by their written forms, then so are the properties of every record: one is
the body, which comes first, and the others are the attributes. -/
namespace SchemaShapes

open Schema

namespace Catalog

variable {c : Catalog}

/-! ### Names of uses -/

/-- The items that complex types bring where they are written. -/
def Node.items : Node → List AttributeItem
  | .complexType t => t.value.attributes
  | _ => []

/-- All declarations of attributes: those at the top level, in attribute groups and in complex types,
at any depth. -/
def declaredAttributes (c : Catalog) : List Attribute :=
  c.attributes ++ (c.attributeGroups.flatMap (·.items) ++ c.nodes.flatMap Node.items).filterMap fun
    | .declared a _ => some a
    | _ => none

theorem mem_declaredAttributes_of_group {g : AttributeGroup} (hg : g ∈ c.attributeGroups)
    {a : Attribute} {usage : Option Markup.Usage} (ha : .declared a usage ∈ g.items) :
    a ∈ c.declaredAttributes := by
  refine List.mem_append_right _ (List.mem_filterMap.mpr ⟨.declared a usage, ?_, rfl⟩)
  exact List.mem_append_left _ (List.mem_flatMap.mpr ⟨g, hg, ha⟩)

theorem mem_declaredAttributes_of_type {t : Located ComplexType} (ht : .complexType t ∈ c.nodes)
    {a : Attribute} {usage : Option Markup.Usage} (ha : .declared a usage ∈ t.value.attributes) :
    a ∈ c.declaredAttributes := by
  refine List.mem_append_right _ (List.mem_filterMap.mpr ⟨.declared a usage, ?_, rfl⟩)
  exact List.mem_append_right _ (List.mem_flatMap.mpr ⟨_, ht, ha⟩)

/-- The uses that items bring are of attributes that are declared there, or elsewhere. -/
theorem ItemsBring.exists_declared {items : List AttributeItem} {uses : List AttributeUse}
    (h : c.ItemsBring items uses)
    (hi : ∀ a usage, .declared a usage ∈ items → a ∈ c.declaredAttributes) :
    ∀ u ∈ uses, ∃ a ∈ c.declaredAttributes, u.name = a.name := by
  induction h with
  | nil => simp
  | declared _ ih =>
    intro u hu
    rcases List.mem_cons.mp hu with rfl | hu
    · exact ⟨_, hi _ _ List.mem_cons_self, rfl⟩
    · exact ih (fun a usage ha => hi a usage (List.mem_cons_of_mem _ ha)) u hu
  | reference ha _ ih =>
    intro u hu
    rcases List.mem_cons.mp hu with rfl | hu
    · exact ⟨_, List.mem_append_left _ (findAttribute_eq_some ha).1, rfl⟩
    · exact ih (fun a usage ha => hi a usage (List.mem_cons_of_mem _ ha)) u hu
  | group hg _ _ ihinner ih =>
    intro u hu
    rcases List.mem_append.mp hu with hu | hu
    · have hgroup := (findAttributeGroup_eq_some hg).1
      exact ihinner (fun a usage ha => mem_declaredAttributes_of_group hgroup ha) u hu
    · exact ih (fun a usage ha => hi a usage (List.mem_cons_of_mem _ ha)) u hu

theorem TypeBrings.exists_declared {t : Located ComplexType} {uses : List AttributeUse}
    (h : c.TypeBrings t uses) (ht : .complexType t ∈ c.nodes) :
    ∀ u ∈ uses, ∃ a ∈ c.declaredAttributes, u.name = a.name := by
  induction h with
  | underived _ h | simple _ _ h =>
    exact h.exists_declared fun a usage ha => mem_declaredAttributes_of_type ht ha
  | complex hb hu _ h ih =>
    intro u hmem
    rcases List.mem_append.mp hmem with hmem | hmem
    · exact ih (mem_nodes_of_edge ht (.base hb (namedType_eq_complex_iff.mp hu))) u hmem
    · exact h.exists_declared (fun a usage ha => mem_declaredAttributes_of_type ht ha) u hmem

/-- The attributes of a complex type have distinct names, which are names of declared ones. -/
theorem convertAttributes_names (hf : c.fault = none) {t : Located ComplexType}
    (ht : .complexType t ∈ c.nodes) : ((c.convertAttributes t).map (·.name)).Nodup ∧
      ∀ a ∈ c.convertAttributes t, ∃ b ∈ c.declaredAttributes, a.name = b.name := by
  obtain ⟨uses, hbrings, heq⟩ := exists_typeBrings hf ht
  constructor
  · have hnames : ((c.attributeUses t).map AttributeUse.name).Nodup := by
      rw [heq]
      exact Keyed.nodup_ofList uses
    rw [convertAttributes, List.map_map]
    exact hnames.sublist (List.filter_sublist.map _)
  · intro a ha
    obtain ⟨u, hu, rfl⟩ := List.mem_map.mp ha
    have huses := (List.mem_filter.mp hu).1
    rw [heq] at huses
    exact hbrings.exists_declared ht u (Keyed.mem_of_mem_ofList huses)

/-! ### Elements within a tree -/

/-- The attributes of an element are those of a complex type, unless it has none. -/
def HasAttributes (c : Catalog) (f : Tree.Element) : Prop :=
  f.attributes = [] ∨ ∃ t, .complexType t ∈ c.nodes ∧ f.attributes = c.convertAttributes t

theorem StandsFor.hasAttributes {f : Tree.Element} (h : c.StandsFor f) : c.HasAttributes f := by
  obtain ⟨e, he, has⟩ := h
  cases has with
  | simple ht => exact .inl rfl
  | complex ht h => exact .inr ⟨_, mem_nodes_of_edge he (.type ht), rfl⟩

theorem mem_globalElements_of_select {selector : Tree.Selector} {e : Located Element}
    (h : c.select selector = .ok e) : e ∈ c.globalElements := by
  unfold select at h
  dsimp only at h
  split at h
  · cases h
  · split at h
    · cases h
    · next hfilter =>
      cases h
      exact (List.mem_filter.mp (hfilter ▸ List.mem_singleton_self e)).1
    · cases h

end Catalog

/-! ### Properties of records -/

/-- The properties of a record; no other shape has any. -/
def Shape.properties : Shape → List Property
  | .record _ properties _ => properties
  | _ => []

theorem Shape.exists_record {shape : Shape} (h : shape.properties ≠ []) :
    ∃ name optional, shape = .record name shape.properties optional := by
  cases shape with
  | record name properties optional => exact ⟨name, optional, rfl⟩
  | _ => exact absurd rfl h

/-- One of the properties of a record is its body, the first one, and no two have the same name. -/
structure OneBody (properties : List Property) : Prop where
  body_first : ∃ body rest, properties = body :: rest ∧ body.isBody ∧ ∀ p ∈ rest, ¬p.isBody
  nodup : (properties.map Property.name).Nodup

theorem oneBody_of_attributes {attributes : List Tree.Attribute}
    (hnodup : (attributes.map (·.name)).Nodup) (hplain : ∀ a ∈ attributes, a.name.Plain)
    (body : Shape) : OneBody (.body body :: attributes.map Tree.Attribute.property) := by
  have hname : ∀ a ∈ attributes, a.property.name ≠ "" :=
    fun a ha => QName.text_ne_empty (hplain a ha).1
  constructor
  · refine ⟨_, _, rfl, rfl, fun p hp => ?_⟩
    obtain ⟨a, ha, rfl⟩ := List.mem_map.mp hp
    simpa [Property.isBody] using hname a ha
  · rw [List.map_cons, List.map_map, List.nodup_cons]
    constructor
    · intro hmem
      obtain ⟨a, ha, heq⟩ := List.mem_map.mp hmem
      exact hname a ha heq
    · have htexts : ((attributes.map (·.name)).map QName.text).Nodup := by
        refine hnodup.map_on fun q hq r hr heq => ?_
        obtain ⟨a, ha, rfl⟩ := List.mem_map.mp hq
        obtain ⟨b, hb, rfl⟩ := List.mem_map.mp hr
        exact QName.text_injective (hplain a ha).2 (hplain b hb).2 heq
      rwa [List.map_map] at htexts

namespace SchemaSet

variable {s : SchemaSet} {selector : Tree.Selector} {shape : Shape}

theorem exists_tree_of_infer (h : s.infer selector = .ok shape) :
    ∃ e tree, e ∈ s.globalElements ∧ s.elementTree e = .ok tree ∧ tree.shape = shape := by
  unfold infer Catalog.tree at h
  cases hselect : s.select selector with
  | error err =>
    rw [hselect] at h
    cases h
  | ok e =>
    rw [hselect] at h
    cases htree : s.elementTree e with
    | error err =>
      simp only [Except.mapError, bind, Except.bind, htree] at h
      cases h
    | ok tree =>
      simp only [Except.mapError, bind, Except.bind, htree] at h
      exact ⟨e, tree, Catalog.mem_globalElements_of_select hselect, htree, Except.ok.inj h⟩

/-- If the names of declared attributes are plain, as names in XML are, then every record in a shape,
at any depth, has one body, which is its first property, and properties with distinct names. -/
theorem record_oneBody (h : s.infer selector = .ok shape)
    (hplain : ∀ a ∈ s.declaredAttributes, a.name.Plain) {name : Option String}
    {properties : List Property} {optional : Bool}
    (hrecord : Shape.Inside (.record name properties optional) shape) : OneBody properties := by
  obtain ⟨e, tree, he, htree, rfl⟩ := exists_tree_of_infer h
  have hnode : .element e ∈ s.nodes := Catalog.mem_nodes_of_topLevel
    (Catalog.topLevel_of_findElement (Catalog.mem_globalElements_iff.mp he))
  have has : s.ElementAs e tree :=
    Catalog.faithful s.fault_eq_none (d := .element e) hnode tree htree
  obtain ⟨-, -, -, hrecords⟩ := Tree.shape_wellFormed tree
  rcases hrecords name properties optional hrecord with ⟨-, hwildcard⟩ | ⟨occurs, f, hf, hshape, -⟩
  · cases hwildcard
    exact @oneBody_of_attributes [] List.nodup_nil (by simp) .top
  · obtain ⟨body, hbody⟩ := Tree.shape_element_eq f
    obtain ⟨-, rfl, -⟩ := (Shape.record.injEq ..).mp (hbody.symm.trans hshape)
    have hstands := has.allStand s.fault_eq_none hnode .once occurs f hf
    rcases hstands.hasAttributes with hnone | ⟨t, ht, hsome⟩
    · rw [hnone]
      exact @oneBody_of_attributes [] List.nodup_nil (by simp) body
    · obtain ⟨hnodup, hdeclared⟩ := Catalog.convertAttributes_names s.fault_eq_none ht
      rw [hsome]
      refine oneBody_of_attributes hnodup (fun a ha => ?_) body
      obtain ⟨b, hb, hname⟩ := hdeclared a ha
      exact hname ▸ hplain b hb

/-- The fence of the garden has a colour; that it has a height is taken back. -/
theorem record_oneBody_fence : (∀ a ∈ garden.declaredAttributes, a.name.Plain) ∧
    ∃ name properties optional,
      garden.infer ⟨some "fence", none⟩ = .ok (.record name properties optional) ∧
      properties.map (·.name) = ["", "colour"] ∧ OneBody properties := by
  have hplain : ∀ a ∈ garden.declaredAttributes, a.name.Plain := by decide +kernel
  have hinfer : (garden.infer ⟨some "fence", none⟩).toOption.any fun shape =>
      decide (shape.properties.map (·.name) = ["", "colour"]) := by decide +kernel
  obtain ⟨shape, hshape, hnames⟩ := (Option.any_eq_true _ _).mp hinfer
  have hnames := of_decide_eq_true hnames
  obtain ⟨name, optional, hrecord⟩ := shape.exists_record fun h => by simp [h] at hnames
  have hshape := eq_ok_of_toOption hshape
  have hinside : Shape.Inside (.record name shape.properties optional) shape := by
    rw [← hrecord]
    exact .here
  exact ⟨hplain, name, shape.properties, optional, hrecord ▸ hshape, hnames,
    record_oneBody hshape hplain hinside⟩

/-- A room with an attribute whose name is empty, and with two whose names are written alike. -/
def roomText : String :=
  "<schema xmlns=\"http://www.w3.org/2001/XMLSchema\" targetNamespace=\"urn:a\">" ++
    "<element name=\"room\"><complexType><attribute name=\"\" type=\"int\"/>" ++
    "<attribute name=\"size\" type=\"int\" form=\"qualified\"/>" ++
    "<attribute name=\"\x7burn:a\x7dsize\" type=\"int\"/>" ++
    "</complexType></element></schema>"

/-- Names of attributes are taken as they are, so one attribute passes for the body of the room, and
another one for the size. -/
theorem record_not_oneBody_room : ∃ set name properties optional,
    SchemaSet.compile roomText (.ofTexts []) = .ok set ∧
    set.infer ⟨some "room", none⟩ = .ok (.record name properties optional) ∧
    properties.map (·.name) = ["", "", "\x7burn:a\x7dsize", "\x7burn:a\x7dsize"] ∧
    ¬OneBody properties := by
  have hset : (SchemaSet.compile roomText (.ofTexts [])).toOption.any fun set =>
      (set.infer ⟨some "room", none⟩).toOption.any fun shape => decide
        (shape.properties.map (·.name) = ["", "", "\x7burn:a\x7dsize", "\x7burn:a\x7dsize"]) := by
    decide +kernel
  obtain ⟨set, hcompile, hset⟩ := (Option.any_eq_true _ _).mp hset
  obtain ⟨shape, hshape, hnames⟩ := (Option.any_eq_true _ _).mp hset
  have hnames := of_decide_eq_true hnames
  obtain ⟨name, optional, hrecord⟩ := shape.exists_record fun h => by simp [h] at hnames
  refine ⟨set, name, shape.properties, optional, eq_ok_of_toOption hcompile,
    hrecord ▸ eq_ok_of_toOption hshape, hnames, fun h => ?_⟩
  have hnodup := h.nodup
  rw [hnames] at hnodup
  exact absurd hnodup (by decide)

end SchemaSet

end SchemaShapes
