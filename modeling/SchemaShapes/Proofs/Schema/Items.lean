import SchemaShapes.Proofs.Traversal
import SchemaShapes.Schema.Document

/-! What the items of a document come to. Its links are those that are written in it, and its
declarations of a kind have the names that are written in it, all in the target namespace; neither
depends on what else is declared. -/
namespace SchemaShapes.Schema

open Markup (Component)

/-- The link that a component at the top level is, if it is one. -/
def linkOf? : Component → Option Link
  | .link kind location ns => some ⟨kind, location, ns⟩
  | _ => none

/-- The name that a component at the top level is written with, if it is of a kind. -/
def nameOf? : ComponentKind → Component → Option String
  | .element, .element head _ => head.name
  | .attribute, .attribute head _ => head.name
  | .group, .group name _ _ _ => name
  | .attributeGroup, .attributeGroup name _ _ => name
  | .complexType, .complexType name _ _ => name
  | .simpleType, .simpleType name _ => name
  | _, _ => none

/-- The names of what a document declares of a kind. -/
def Document.names (d : Document) : ComponentKind → List QName
  | .element => d.elements.map (·.name)
  | .attribute => d.attributes.map (·.name)
  | .group => d.groups.map (·.name)
  | .attributeGroup => d.attributeGroups.map (·.name)
  | .complexType => d.complexTypes.filterMap (·.name)
  | .simpleType => d.simpleTypes.filterMap (·.name)

/-! ### Names of declarations -/

section

variable {ctx : Context} {items : List Component}

theorem eq_of_within {α : Type} {kind : ComponentKind} {name : String} {x : Declared α} {a : α}
    (h : within kind name x = .ok a) : x = .ok a := by
  cases x with
  | error e => cases h
  | ok b => exact h

theorem name_of_declareElement {name : QName} {head : Markup.ElementHead}
    {inline : Option (Declared ElementType)} {e : Element}
    (h : declareElement ctx name head inline = .ok e) : e.name = name := by
  obtain ⟨type, htype, h⟩ := exists_of_bind_eq_ok h
  split at h
  · obtain ⟨_, -, h⟩ := exists_of_bind_eq_ok h
    cases h
    rfl
  · cases h
    rfl

theorem exists_of_declareGlobalElement {head : Markup.ElementHead} {e : Element}
    (h : declareGlobalElement ctx head items = .ok e) :
    ∃ name, head.name = some name ∧
      declareElement ctx (ctx.globalName name) head (inlineType ctx items) = .ok e := by
  unfold declareGlobalElement at h
  split at h
  · cases h
  · next name hname => exact ⟨name, hname, eq_of_within h⟩

theorem name_of_declareGlobalElement {head : Markup.ElementHead} {e : Element}
    (h : declareGlobalElement ctx head items = .ok e) :
    ∃ name, head.name = some name ∧ e.name = ctx.globalName name := by
  obtain ⟨name, hname, h⟩ := exists_of_declareGlobalElement h
  exact ⟨name, hname, name_of_declareElement h⟩

theorem name_of_declareAttribute {name : QName} {head : Markup.AttributeHead} {a : Attribute}
    (h : declareAttribute ctx name head items = .ok a) : a.name = name := by
  unfold declareAttribute at h
  split at h
  · obtain ⟨_, -, h⟩ := exists_of_bind_eq_ok h
    cases h
    rfl
  · obtain ⟨_, -, h⟩ := exists_of_bind_eq_ok h
    cases h
    rfl
  · cases h
    rfl

theorem exists_of_declareGlobalAttribute {head : Markup.AttributeHead} {a : Attribute}
    (h : declareGlobalAttribute ctx head items = .ok a) :
    ∃ name, head.name = some name ∧
      declareAttribute ctx (ctx.globalName name) head items = .ok a := by
  unfold declareGlobalAttribute at h
  split at h
  · cases h
  · next name hname => exact ⟨name, hname, eq_of_within h⟩

theorem name_of_declareGlobalAttribute {head : Markup.AttributeHead} {a : Attribute}
    (h : declareGlobalAttribute ctx head items = .ok a) :
    ∃ name, head.name = some name ∧ a.name = ctx.globalName name := by
  obtain ⟨name, hname, h⟩ := exists_of_declareGlobalAttribute h
  exact ⟨name, hname, name_of_declareAttribute h⟩

theorem name_of_declareGroup {name : Option String} {g : GroupDefinition}
    (h : declareGroup ctx name items = .ok g) :
    ∃ written, name = some written ∧ g.name = ctx.globalName written := by
  cases name with
  | none => cases h
  | some name =>
    refine ⟨name, rfl, ?_⟩
    simp only [declareGroup] at h
    split at h
    · cases h
      rfl
    · obtain ⟨_, -, h⟩ := exists_of_bind_eq_ok h
      cases h
      rfl

theorem name_of_declareAttributeGroup {name : Option String} {g : AttributeGroup}
    (h : declareAttributeGroup ctx name items = .ok g) :
    ∃ written, name = some written ∧ g.name = ctx.globalName written := by
  cases name with
  | none => cases h
  | some name =>
    obtain ⟨_, -, h⟩ := exists_of_bind_eq_ok h
    cases h
    exact ⟨name, rfl, rfl⟩

theorem name_of_declareComplexType {name : Option String} {mixed : Option Bool} {t : ComplexType}
    (h : declareComplexType ctx name mixed items = .ok t) :
    t.name = name.map ctx.globalName := by
  obtain ⟨_, -, h⟩ := exists_of_bind_eq_ok h
  cases h
  rfl

theorem name_of_map {α : Type} {f : α → SimpleType} {name : Option QName} {x : Declared α}
    {t : SimpleType} (hf : ∀ a, (f a).name = name) (h : x.map f = .ok t) : t.name = name := by
  cases x with
  | error e => cases h
  | ok a =>
    cases h
    exact hf a

theorem name_of_varietyOf {name : Option QName} {c : Component} {t : SimpleType}
    (h : varietyOf ctx name c = some (.ok t)) : t.name = name := by
  unfold varietyOf at h
  split at h
  · have h := Option.some.inj h
    split at h
    · exact name_of_map (fun _ => rfl) h
    · split at h
      · exact name_of_map (fun _ => rfl) h
      · cases h
  · cases h
    rfl
  · cases h
    rfl
  · cases h

theorem mem_of_variety {name : Option QName} {r : Declared SimpleType}
    (h : variety ctx name items = some r) : ∃ c ∈ items, varietyOf ctx name c = some r := by
  refine exists_of_first (by rw [variety]) (fun c rest => ?_) h
  rw [variety]
  cases varietyOf ctx name c <;> rfl

/-- A simple type has the variety that one of its items gives it. -/
theorem mem_of_declareSimpleType {name : Option String} {t : SimpleType}
    (h : declareSimpleType ctx name items = .ok t) :
    ∃ c ∈ items, varietyOf ctx (name.map ctx.globalName) c = some (.ok t) := by
  have h := eq_of_within h
  cases hvariety : variety ctx (name.map ctx.globalName) items with
  | none =>
    rw [hvariety] at h
    cases h
  | some r =>
    rw [hvariety] at h
    exact mem_of_variety (hvariety.trans (congrArg some h))

theorem name_of_declareSimpleType {name : Option String} {t : SimpleType}
    (h : declareSimpleType ctx name items = .ok t) : t.name = name.map ctx.globalName := by
  obtain ⟨c, -, hc⟩ := mem_of_declareSimpleType h
  exact name_of_varietyOf hc

/-! ### Items one by one -/

/-- An item adds its link, or the name of what it declares, to those of the items after it. -/
theorem declareItems_cons {c : Component} {rest : List Component} {d : Document}
    (h : declareItems ctx (c :: rest) = .ok d) :
    ∃ e, declareItems ctx rest = .ok e ∧ d.links = (linkOf? c).toList ++ e.links ∧
      ∀ kind, d.names kind = ((nameOf? kind c).map ctx.globalName).toList ++ e.names kind := by
  cases c with
  | link kind location ns =>
    obtain ⟨e, he, h⟩ := exists_of_bind_eq_ok h
    cases h
    exact ⟨e, he, rfl, fun kind => by cases kind <;> rfl⟩
  | element head inner =>
    obtain ⟨x, hx, h⟩ := exists_of_bind_eq_ok h
    obtain ⟨e, he, h⟩ := exists_of_bind_eq_ok h
    cases h
    obtain ⟨name, hname, heq⟩ := name_of_declareGlobalElement hx
    refine ⟨e, he, rfl, fun kind => ?_⟩
    cases kind with
    | element => simp [Document.names, nameOf?, hname, heq]
    | _ => rfl
  | «attribute» head inner =>
    obtain ⟨x, hx, h⟩ := exists_of_bind_eq_ok h
    obtain ⟨e, he, h⟩ := exists_of_bind_eq_ok h
    cases h
    obtain ⟨name, hname, heq⟩ := name_of_declareGlobalAttribute hx
    refine ⟨e, he, rfl, fun kind => ?_⟩
    cases kind with
    | «attribute» => simp [Document.names, nameOf?, hname, heq]
    | _ => rfl
  | group name ref occurs inner =>
    obtain ⟨x, hx, h⟩ := exists_of_bind_eq_ok h
    obtain ⟨e, he, h⟩ := exists_of_bind_eq_ok h
    cases h
    obtain ⟨name, rfl, heq⟩ := name_of_declareGroup hx
    refine ⟨e, he, rfl, fun kind => ?_⟩
    cases kind with
    | group => simp [Document.names, nameOf?, heq]
    | _ => rfl
  | attributeGroup name ref inner =>
    obtain ⟨x, hx, h⟩ := exists_of_bind_eq_ok h
    obtain ⟨e, he, h⟩ := exists_of_bind_eq_ok h
    cases h
    obtain ⟨name, rfl, heq⟩ := name_of_declareAttributeGroup hx
    refine ⟨e, he, rfl, fun kind => ?_⟩
    cases kind with
    | attributeGroup => simp [Document.names, nameOf?, heq]
    | _ => rfl
  | complexType name mixed inner =>
    obtain ⟨x, hx, h⟩ := exists_of_bind_eq_ok h
    obtain ⟨_, -, h⟩ := exists_of_bind_eq_ok h
    obtain ⟨e, he, h⟩ := exists_of_bind_eq_ok h
    cases h
    have heq := name_of_declareComplexType hx
    refine ⟨e, he, rfl, fun kind => ?_⟩
    cases kind with
    | complexType => cases name <;> simp [Document.names, nameOf?, heq]
    | _ => rfl
  | simpleType name inner =>
    obtain ⟨x, hx, h⟩ := exists_of_bind_eq_ok h
    obtain ⟨_, -, h⟩ := exists_of_bind_eq_ok h
    obtain ⟨e, he, h⟩ := exists_of_bind_eq_ok h
    cases h
    have heq := name_of_declareSimpleType hx
    refine ⟨e, he, rfl, fun kind => ?_⟩
    cases kind with
    | simpleType => cases name <;> simp [Document.names, nameOf?, heq]
    | _ => rfl
  | simpleContent | complexContent | derivation | modelGroup | any | list | union | aside =>
    exact ⟨d, h, rfl, fun kind => by cases kind <;> rfl⟩

/-- The links of a document are those that are written in it. -/
theorem links_declareItems {d : Document} (h : declareItems ctx items = .ok d) :
    d.links = items.filterMap linkOf? := by
  induction items generalizing d with
  | nil =>
    cases h
    rfl
  | cons c rest ih =>
    obtain ⟨e, he, hlinks, -⟩ := declareItems_cons h
    rw [hlinks, ih he, List.filterMap_cons]
    cases linkOf? c <;> rfl

/-- What a document declares of a kind has the names that are written in it, in the target
namespace. -/
theorem names_declareItems {d : Document} (h : declareItems ctx items = .ok d)
    (kind : ComponentKind) :
    d.names kind = (items.filterMap (nameOf? kind)).map ctx.globalName := by
  induction items generalizing d with
  | nil =>
    cases h
    cases kind <;> rfl
  | cons c rest ih =>
    obtain ⟨e, he, -, hnames⟩ := declareItems_cons h
    rw [hnames, ih he, List.filterMap_cons]
    cases nameOf? kind c <;> rfl

end

/-! ### Documents of texts -/

/-- A text is read as a document whatever it is included in. -/
theorem Document.exists_markup_of_parse {text : String} {includer : Option String} {d : Document}
    (h : Document.parse text includer = .ok d) :
    ∃ qualified m, Xml.qualify text.toList = .ok qualified ∧
      Markup.Document.read? qualified = some m := by
  unfold Document.parse at h
  split at h
  · cases h
  · rename_i qualified hqualified
    split at h
    · cases h
    · rename_i m hm
      exact ⟨qualified, m, hqualified, hm⟩

theorem Document.declare_of_parse {text : String} {includer : Option String} {d : Document}
    {qualified : List Char} {m : Markup.Document} (h : Document.parse text includer = .ok d)
    (hqualified : Xml.qualify text.toList = .ok qualified)
    (hm : Markup.Document.read? qualified = some m) : Document.declare m includer = .ok d := by
  unfold Document.parse at h
  simp only [hqualified, hm] at h
  cases hd : Document.declare m includer with
  | error e =>
    rw [hd] at h
    cases h
  | ok e =>
    rw [hd] at h
    cases h
    rfl

/-- What a text links to does not depend on the document that includes it. -/
theorem links_eq_of_parse {text : String} {includer includer' : Option String} {d d' : Document}
    (h : Document.parse text includer = .ok d) (h' : Document.parse text includer' = .ok d') :
    d.links = d'.links := by
  obtain ⟨qualified, m, hqualified, hm⟩ := Document.exists_markup_of_parse h
  rw [links_declareItems (Document.declare_of_parse h hqualified hm),
    links_declareItems (Document.declare_of_parse h' hqualified hm)]

end SchemaShapes.Schema
