import SchemaShapes.Proofs.Schema.Sources

/-! Names of declarations. At the top level, and for types wherever they are written, names are in
the namespace of the document. Elements and attributes inside other components are in it if their
form, or the one that the document has for them, is qualified, and are in no namespace otherwise. No
name is in a namespace that is empty. -/
namespace SchemaShapes

open Relation (ReflTransGen)

/-- The namespace of what a document declares: its own, unless that is missing or empty, else that
of the document that includes it. -/
def Markup.Document.namespaceIn (m : Markup.Document) (includer : Option String) : Option String :=
  (m.targetNamespace.filter (· ≠ "")).or (includer.filter (· ≠ ""))

/-- The name that a component declares. -/
def Catalog.Component.ownName? : Catalog.Component → Option QName
  | .element e => some e.name
  | .complexType t => t.name
  | .simpleType t => t.name
  | .group d => some d.name
  | .attribute a => some a.name
  | .attributeGroup g => some g.name
  | _ => none

/-- A component declares a name or refers to it, its parts aside. -/
def Catalog.Component.Carries (x : Catalog.Component) (q : QName) : Prop :=
  x.ownName? = some q ∨ ∃ r, x.Uses r ∧ r.name = q

namespace Schema

open Markup (Component Form)

/-- The name of a declaration of a form in a document of a namespace. -/
def nameInForm (ns : Option String) (form : Form) (name : String) : QName :=
  ⟨if form = .qualified then ns else none, name⟩

/-- The names of what a written component is declared as, as a document has it: those of types are
in its namespace, and those of elements and attributes are in their form. -/
def NamedAs (m : Markup.Document) (ns : Option String) : Catalog.Component → Component → Prop
  | .particle (.element _ e), c => ∃ head items name, c = .element head items ∧ head.ref = none ∧
    head.name = some name ∧
    e.name = nameInForm ns (head.form.getD (m.elementForm.getD .unqualified)) name
  | .attributeItem (.declared a _), c => ∃ head items name, c = .attribute head items ∧
    head.ref = none ∧ head.name = some name ∧
    a.name = nameInForm ns (head.form.getD (m.attributeForm.getD .unqualified)) name
  | .complexType t, c => ∃ name mixed items, c = .complexType name mixed items ∧
    t.name = name.map (QName.mk ns)
  | .simpleType t, c => ∃ name items, c = .simpleType name items ∧ t.name = name.map (QName.mk ns)
  | _, _ => True

section

variable {ctx : Context} {items : List Component}

/-! ### Declared names -/

theorem Context.globalName_ofDocument {m : Markup.Document} {includer : Option String} :
    (Context.ofDocument m includer).globalName = QName.mk (m.namespaceIn includer) := by
  funext name
  rw [globalName, QName.of, ofDocument, Markup.Document.namespaceIn]
  congr 1
  cases hown : m.targetNamespace.filter (· ≠ "") with
  | none => rfl
  | some own =>
    have hne : own ≠ "" := by simpa using (Option.filter_eq_some_iff.mp hown).2
    simp [hne]

theorem Context.nameOfForm_ofDocument {m : Markup.Document} {includer : Option String}
    (name : String) (form : Form) : (Context.ofDocument m includer).nameOfForm name form =
      nameInForm (m.namespaceIn includer) form name := by
  cases form with
  | qualified => rw [nameOfForm, globalName_ofDocument, nameInForm, if_pos rfl]
  | unqualified => rfl

theorem Context.ns_nameOfForm_ne_empty (name : String) (form : Form) :
    (ctx.nameOfForm name form).ns ≠ some "" := by
  cases form with
  | qualified => exact QName.ns_of_ne_empty _ _
  | unqualified => exact QName.ns_of_ne_empty _ _

/-- What a component of a document is declared as is named as it is written. -/
theorem DeclaredAs.namedAs {m : Markup.Document} {includer : Option String} {x : Catalog.Component}
    {c : Component} (h : DeclaredAs (.ofDocument m includer) x c) :
    NamedAs m (m.namespaceIn includer) x c := by
  cases h with
  | complexType h =>
    refine ⟨_, _, _, rfl, ?_⟩
    rw [name_of_declareComplexType h, Context.globalName_ofDocument]
  | simpleType h =>
    refine ⟨_, _, rfl, ?_⟩
    rw [name_of_declareSimpleType h, Context.globalName_ofDocument]
  | @particle c p h =>
    cases p with
    | element occurs e =>
      obtain ⟨head, items, rfl, hdecl⟩ := exists_of_particleOf_element h
      obtain ⟨name, href, hname, hdecl⟩ := exists_of_declareLocalElement hdecl
      refine ⟨head, items, name, rfl, href, hname, ?_⟩
      rw [name_of_declareElement hdecl, Context.localElementName, Context.nameOfForm_ofDocument]
      rfl
    | _ => trivial
  | @attributeItem c i h =>
    cases i with
    | declared a usage =>
      obtain ⟨head, items, rfl, hdecl⟩ := exists_of_attributeItemOf_declared h
      obtain ⟨name, href, hname, hdecl⟩ := exists_of_declareLocalAttribute hdecl
      refine ⟨head, items, name, rfl, href, hname, ?_⟩
      rw [name_of_declareAttribute hdecl, Context.localAttributeName,
        Context.nameOfForm_ofDocument]
      rfl
    | _ => trivial
  | globalElement | localElement | modelGroup | group | globalAttribute | localAttribute
  | attributeGroup => trivial

/-- No declared name is in a namespace that is empty. -/
theorem DeclaredAs.ns_ownName_ne_empty {x : Catalog.Component} {c : Component}
    (h : DeclaredAs ctx x c) {q : QName} (hq : x.ownName? = some q) : q.ns ≠ some "" := by
  have htype : ∀ name : Option String, name.map ctx.globalName = some q → q.ns ≠ some "" := by
    intro name hname
    obtain ⟨written, -, rfl⟩ := Option.map_eq_some_iff.mp hname
    exact QName.ns_of_ne_empty _ _
  cases h with
  | globalElement h =>
    obtain ⟨name, -, heq⟩ := name_of_declareGlobalElement h
    rw [← Option.some.inj hq, heq]
    exact QName.ns_of_ne_empty _ _
  | localElement h =>
    obtain ⟨name, -, -, hdecl⟩ := exists_of_declareLocalElement h
    rw [← Option.some.inj hq, name_of_declareElement hdecl]
    exact Context.ns_nameOfForm_ne_empty _ _
  | complexType h => exact htype _ ((name_of_declareComplexType h).symm.trans hq)
  | simpleType h => exact htype _ ((name_of_declareSimpleType h).symm.trans hq)
  | group h =>
    obtain ⟨name, -, heq⟩ := name_of_declareGroup h
    rw [← Option.some.inj hq, heq]
    exact QName.ns_of_ne_empty _ _
  | globalAttribute h =>
    obtain ⟨name, -, heq⟩ := name_of_declareGlobalAttribute h
    rw [← Option.some.inj hq, heq]
    exact QName.ns_of_ne_empty _ _
  | localAttribute h =>
    obtain ⟨name, -, -, hdecl⟩ := exists_of_declareLocalAttribute h
    rw [← Option.some.inj hq, name_of_declareAttribute hdecl]
    exact Context.ns_nameOfForm_ne_empty _ _
  | attributeGroup h =>
    obtain ⟨name, -, heq⟩ := name_of_declareAttributeGroup h
    rw [← Option.some.inj hq, heq]
    exact QName.ns_of_ne_empty _ _
  | particle | modelGroup | attributeItem => cases hq

/-! ### References -/

theorem Context.Resolves.ns_ne_empty {q : QName} (h : ctx.Resolves q) : q.ns ≠ some "" := by
  obtain ⟨written, h⟩ := h
  unfold resolve at h
  dsimp only at h
  split at h
  · cases h
  · split at h
    · cases h
    · split_ifs at h
      cases h
      exact QName.ns_of_ne_empty _ _
  · split at h
    · split_ifs at h
    · cases h
      exact QName.ns_of_ne_empty _ _

theorem resolves_of_declareElement {name : QName} {head : Markup.ElementHead} {e : Element}
    (h : declareElement ctx name head (inlineType ctx items) = .ok e) {q : QName}
    (hq : e.type = .named q) : ctx.Resolves q := by
  rcases type_of_declareElement h with ⟨q', hq', htype⟩ | htype
  · rw [hq] at htype
    cases htype
    exact hq'
  · -- No type that is written inside an element is a mere name.
    rw [hq] at htype
    cases hi : inlineType ctx items with
    | none =>
      rw [hi] at htype
      cases htype
    | some r =>
      rw [hi] at htype
      obtain ⟨c, -, hc⟩ := mem_of_inlineType (hi.trans (congrArg some htype))
      unfold inlineTypeOf at hc
      split at hc
      · obtain ⟨_, -, heq⟩ := exists_of_map_eq_ok (Option.some.inj hc)
        cases heq
      · obtain ⟨_, -, heq⟩ := exists_of_map_eq_ok (Option.some.inj hc)
        cases heq
      · cases hc

theorem resolves_of_declareAttribute {name : QName} {head : Markup.AttributeHead} {a : Attribute}
    (h : declareAttribute ctx name head items = .ok a) {q : QName} (hq : a.type = .named q) :
    ctx.Resolves q := by
  unfold declareAttribute at h
  split at h
  · obtain ⟨q', hq', h⟩ := exists_of_bind_eq_ok h
    cases h
    cases hq
    exact ⟨_, hq'⟩
  · obtain ⟨_, -, h⟩ := exists_of_bind_eq_ok h
    cases h
    cases hq
  · cases h
    cases hq

theorem resolves_of_declareSimpleType {name : Option String} {own : Option QName} {q : QName}
    (h : declareSimpleType ctx name items = .ok (.restriction own q)) : ctx.Resolves q := by
  obtain ⟨c, -, hvariety⟩ := mem_of_declareSimpleType h
  rcases varietyOf_cases hvariety with ⟨q', hq', heq⟩ | ⟨u, -, heq⟩ | heq | heq
  · cases heq
    exact hq'
  · cases heq
  · cases heq
  · cases heq

theorem resolves_of_groupRef {ref : Option String} {occurs : Occurs} {p : Particle}
    (h : declareGroupRef ctx ref occurs = .ok p) {r : Reference}
    (hr : (Catalog.Component.particle p).Uses r) : ctx.Resolves r.name := by
  cases ref with
  | none => cases h
  | some written =>
    obtain ⟨q, hq, h⟩ := exists_of_bind_eq_ok h
    cases h
    cases hr
    exact ⟨written, eq_of_within hq⟩

/-- The names that particles refer to are what written references mean. -/
theorem resolves_of_particleOf {c : Component} {p : Particle} (h : particleOf ctx c = some (.ok p))
    {r : Reference} (hr : (Catalog.Component.particle p).Uses r) : ctx.Resolves r.name := by
  unfold particleOf at h
  split at h
  · have h := Option.some.inj h
    unfold declareLocalElement at h
    split at h
    · obtain ⟨q, hq, h⟩ := exists_of_bind_eq_ok h
      cases h
      cases hr
      exact ⟨_, eq_of_within hq⟩
    · cases h
    · obtain ⟨_, -, h⟩ := exists_of_bind_eq_ok h
      cases h
      cases hr
  · exact resolves_of_groupRef (Option.some.inj h) hr
  · obtain ⟨ps, -, rfl⟩ := exists_of_map_eq_ok (Option.some.inj h)
    cases hr
  · cases h
    cases hr
  · cases h

/-- The names that attributes of types and groups refer to are what written references mean. -/
theorem resolves_of_attributeItemOf {c : Component} {i : AttributeItem}
    (h : attributeItemOf ctx c = some (.ok i)) {r : Reference}
    (hr : (Catalog.Component.attributeItem i).Uses r) : ctx.Resolves r.name := by
  unfold attributeItemOf at h
  split at h
  · have h := Option.some.inj h
    unfold declareLocalAttribute at h
    split at h
    · obtain ⟨q, hq, h⟩ := exists_of_bind_eq_ok h
      cases h
      cases hr
      exact ⟨_, eq_of_within hq⟩
    · cases h
    · obtain ⟨_, -, h⟩ := exists_of_bind_eq_ok h
      cases h
      cases hr
  · next ref _ =>
    cases ref with
    | none => cases h
    | some written =>
      obtain ⟨q, hq, h⟩ := exists_of_bind_eq_ok (Option.some.inj h)
      cases h
      cases hr
      exact ⟨written, eq_of_within hq⟩
  · cases h

/-- The names that a component refers to are what written references mean. -/
theorem DeclaredAs.resolves {x : Catalog.Component} {c : Component} (h : DeclaredAs ctx x c)
    {r : Reference} (hr : x.Uses r) : ctx.Resolves r.name := by
  cases h with
  | globalElement h =>
    obtain ⟨name, -, hdecl⟩ := exists_of_declareGlobalElement h
    cases hr with
    | typeOfElement htype => exact resolves_of_declareElement hdecl htype
  | localElement h =>
    obtain ⟨name, -, -, hdecl⟩ := exists_of_declareLocalElement h
    cases hr with
    | typeOfElement htype => exact resolves_of_declareElement hdecl htype
  | complexType h =>
    obtain ⟨b, hb, rfl⟩ := exists_of_declareComplexType h
    cases hr with
    | baseOfComplex hbase =>
      refine resolves_of_declareBody hb ?_
      obtain ⟨mixed, content, attributes⟩ := b
      cases content <;> exact hbase
  | simpleType h =>
    cases hr with
    | baseOfSimple => exact resolves_of_declareSimpleType h
  | particle h => exact resolves_of_particleOf h hr
  | globalAttribute h =>
    obtain ⟨name, -, hdecl⟩ := exists_of_declareGlobalAttribute h
    cases hr with
    | typeOfAttribute htype => exact resolves_of_declareAttribute hdecl htype
  | localAttribute h =>
    obtain ⟨name, -, -, hdecl⟩ := exists_of_declareLocalAttribute h
    cases hr with
    | typeOfAttribute htype => exact resolves_of_declareAttribute hdecl htype
  | attributeItem h => exact resolves_of_attributeItemOf h hr
  | modelGroup | group | attributeGroup => cases hr

end

/-- At the top level, the names of each kind are those that are written, in the namespace of the
document. Whatever a document declares, at any depth, is what something written in it is declared as
and is named after that: types in the namespace of the document, elements and attributes inside
other components in that namespace if their form, or else that of the document, is qualified, and in
no namespace if it is not. No name that is declared or referred to is in a namespace that is
empty. -/
theorem Document.names_assigned {m : Markup.Document} {includer : Option String} {d : Document}
    (h : Document.declare m includer = .ok d) :
    (∀ kind, d.names kind =
      (m.items.filterMap (nameOf? kind)).map (QName.mk (m.namespaceIn includer))) ∧
    (∀ x, d.Holds x → ∃ c, m.Writes c ∧ DeclaredAs (.ofDocument m includer) x c ∧
      NamedAs m (m.namespaceIn includer) x c) ∧
    ∀ x, d.Holds x → ∀ q, x.Carries q → q.ns ≠ some "" := by
  refine ⟨fun kind => ?_, fun x hx => ?_, fun x hx q hq => ?_⟩
  · rw [names_declareItems h kind, Context.globalName_ofDocument]
  · obtain ⟨c, hc, hdecl⟩ := exists_of_holds h hx
    exact ⟨c, hc, hdecl, hdecl.namedAs⟩
  · obtain ⟨c, -, hdecl⟩ := exists_of_holds h hx
    rcases hq with hq | ⟨r, hr, rfl⟩
    · exact hdecl.ns_ownName_ne_empty hq
    · exact (hdecl.resolves hr).ns_ne_empty

/-- The stock of a shop, whose document has an empty target namespace: items have a code and a note,
a unit, with no form of its own, and a size, which is qualified. -/
def stock : Markup.Document where
  targetNamespace := some ""
  elementForm := some .qualified
  attributeForm := none
  items :=
    [.element ⟨some "item", none, none, none, none, .once⟩
      [.complexType (some "Item") none
        [.modelGroup .sequence .once
            [.element ⟨some "code", none, none, none, none, .once⟩ [],
              .element ⟨some "note", none, none, none, some .unqualified, .once⟩ []],
          .attribute ⟨some "unit", none, none, none, none⟩ [],
          .attribute ⟨some "size", none, none, none, some .qualified⟩ []]]]

/-- The stock for a shop. -/
def stocked : Document :=
  { Document.empty (some "urn:shop") with
    elements := [⟨⟨some "urn:shop", "item"⟩, false, .complex ⟨some ⟨some "urn:shop", "Item"⟩, false,
      .particle (some (.group ⟨.sequence, .once,
        [.element .once ⟨⟨some "urn:shop", "code"⟩, false, .unspecified⟩,
          .element .once ⟨⟨none, "note"⟩, false, .unspecified⟩]⟩)),
      [.declared ⟨⟨none, "unit"⟩, .unspecified⟩ none,
        .declared ⟨⟨some "urn:shop", "size"⟩, .unspecified⟩ none]⟩⟩] }

theorem names_assigned_stock : Document.declare stock (some "urn:shop") = .ok stocked ∧
    (∀ kind, stocked.names kind =
      (stock.items.filterMap (nameOf? kind)).map (QName.mk (some "urn:shop"))) ∧
    (∀ x, stocked.Holds x → ∃ c, stock.Writes c ∧
      DeclaredAs (.ofDocument stock (some "urn:shop")) x c ∧ NamedAs stock (some "urn:shop") x c) ∧
    ∀ x, stocked.Holds x → ∀ q, x.Carries q → q.ns ≠ some "" := by
  have hdeclare : Document.declare stock (some "urn:shop") = .ok stocked := rfl
  obtain ⟨hnames, hnamed, hcarried⟩ := Document.names_assigned hdeclare
  have hns : stock.namespaceIn (some "urn:shop") = some "urn:shop" := by decide
  rw [hns] at hnames hnamed
  exact ⟨hdeclare, hnames, hnamed, hcarried⟩

end Schema

end SchemaShapes
