import SchemaShapes.Proofs.Catalog.References
import SchemaShapes.Proofs.SchemaSet.BreadthFirst

/-! Inclusion of documents without a target namespace. A place is loaded for the namespace that the
first visit to it passes on. So an inclusion finds what it includes under the names of its own
namespace if that visit passes on the same namespace; an including document in another namespace
that comes later finds nothing. -/
namespace SchemaShapes

open File (Found Path)
open Schema (ComponentKind Context Document Link nameOf?)

/-! ### Lookup by kind -/

/-- Whether a component of a kind is found under a name. -/
def Catalog.finds (c : Catalog) : ComponentKind → QName → Bool
  | .element, q => (c.findElement q).isSome
  | .attribute, q => (c.findAttribute q).isSome
  | .group, q => (c.findGroup q).isSome
  | .attributeGroup, q => (c.findAttributeGroup q).isSome
  | .complexType, q => (c.findComplexType q).isSome
  | .simpleType, q => (c.findSimpleType q).isSome

/-- What one of the documents declares is found under its name. -/
theorem Catalog.finds_iff {c : Catalog} {kind : ComponentKind} {q : QName} :
    c.finds kind q ↔ ∃ d ∈ c.documents, q ∈ d.document.names kind := by
  cases kind with
  | element =>
    rw [finds, findElement, Option.isSome_map, isSome_lookup_iff, exists_declared_iff]
    simp [Document.names]
  | complexType =>
    rw [finds, findComplexType, Option.isSome_map, isSome_lookup_iff, exists_declared_iff]
    simp [Document.names]
  | group =>
    rw [finds, findGroup, Option.isSome_map, isSome_lookup_iff, exists_declared_iff]
    simp [Document.names]
  | simpleType =>
    rw [finds, findSimpleType, Option.isSome_map, isSome_lookup_iff, exists_declared_iff]
    simp [Document.names]
  | attributeGroup =>
    rw [finds, findAttributeGroup, Option.isSome_map, isSome_lookup_iff, exists_declared_iff]
    simp [Document.names]
  | «attribute» =>
    rw [finds, findAttribute, Option.isSome_map, isSome_lookup_iff, exists_declared_iff]
    simp [Document.names]

/-! ### What an inclusion finds -/

/-- The visits of documents whose locations are seen from their own places. -/
def Catalog.visits (c : Catalog) (resolve : Resolution) : List Visit :=
  c.documents.flatMap fun d => visitsFrom resolve d.location d.document

section

variable {text : String} {r : Resolver} {set : SchemaSet}

/-- Of the documents of a set that is compiled from a text, the root included, the locations are
seen from their own places; what follows the root is what the first visits load. -/
theorem forall₂_of_compile (h : SchemaSet.compile text r = .ok set) :
    List.Forall₂ Visit.Loads (firstVisits [] (set.visits r.resolve)) set.documents.tail := by
  obtain ⟨document, documents, -, hbreadth, hset⟩ := breadthFirst_of_ofRoot h
  obtain ⟨rest, hrest, hloads⟩ := hbreadth.order
  have hbase : ∀ p ∈ documents, p.base = p.location := by
    intro p hp
    rcases hbreadth.reachable p hp with rfl | ⟨v, -, -, -, hbase⟩
    · rfl
    · exact hbase
  have hvisits : set.visits r.resolve = visits r.resolve documents := by
    rw [Catalog.visits, hset, List.flatMap_map, visits]
    refine List.flatMap_congr fun p hp => ?_
    rw [hbase p hp]
    rfl
  have htail : set.documents.tail = rest.map Pending.loaded := by
    rw [hset, hrest]
    rfl
  rw [hvisits, htail, List.forall₂_map_right_iff]
  exact hloads.imp fun _ _ h => h.1

/-- A place that is visited is loaded by the first visit to it. -/
theorem exists_loaded_of_compile (h : SchemaSet.compile text r = .ok set) {v : Visit}
    (hv : v ∈ set.visits r.resolve) :
    ∃ w, (set.visits r.resolve).find? (·.found.location.same v.found.location) = some w ∧
      ∃ e ∈ set.documents, w.Loads e := by
  have hsome : ((set.visits r.resolve).find?
      (·.found.location.same v.found.location)).isSome := by
    rw [List.find?_isSome]
    exact ⟨v, hv, by simp [Path.same]⟩
  obtain ⟨w, hw⟩ := Option.isSome_iff_exists.mp hsome
  have hfirst : w ∈ firstVisits [] (set.visits r.resolve) := mem_firstVisits_of_find? rfl hw
  obtain ⟨e, he, hloads⟩ := exists_of_mem_left (forall₂_of_compile h) hfirst
  exact ⟨w, hw, e, List.mem_of_mem_tail he, hloads⟩

/-- Whatever a document includes that has no target namespace of its own is found under its name in
the namespace of that document, as long as the first visit to its place passes on this namespace. -/
theorem included_found (h : SchemaSet.compile text r = .ok set) {d : LoadedDocument}
    (hd : d ∈ set.documents) {l : Link} (hl : l ∈ d.document.links) (hkind : l.kind = .inclusion)
    {location : String} (hlocation : l.location = some location) {found : Found}
    (hfound : r.resolve d.location location = .ok found) {qualified : List Char}
    {m : Markup.Document} (hqualified : Xml.qualify found.text.toList = .ok qualified)
    (hm : Markup.Document.read? qualified = some m) (hown : ∀ own ∈ m.targetNamespace, own = "")
    (hfirst : ∀ w ∈ (set.visits r.resolve).find? (·.found.location.same found.location),
      w.found.text = found.text ∧ w.passedOn = l.passedOn d.document.targetNamespace) :
    ∀ c ∈ m.items, ∀ kind, ∀ name ∈ nameOf? kind c,
      set.finds kind (.of d.document.targetNamespace name) := by
  obtain ⟨v, hv, rfl⟩ := exists_visit hl hlocation hfound
  have hvisit : v ∈ set.visits r.resolve := List.mem_flatMap.mpr ⟨d, hd, hv⟩
  obtain ⟨w, hw, e, he, hloads⟩ := exists_loaded_of_compile h hvisit
  obtain ⟨htext, hns⟩ := hfirst w hw
  have hpassed : l.passedOn d.document.targetNamespace = d.document.targetNamespace := by
    rw [Link.passedOn, hkind]
  have hparse : Document.parse v.found.text d.document.targetNamespace = .ok e.document := by
    rw [← htext, ← hpassed, ← hns]
    exact hloads.2
  have hdeclare := Document.declare_of_parse hparse hqualified hm
  intro c hc kind name hname
  have htarget : (Context.ofDocument m d.document.targetNamespace).targetNamespace =
      d.document.targetNamespace := by
    have hnone : m.targetNamespace.filter (· ≠ "") = none := by simpa using hown
    simp only [Context.ofDocument, hnone]
    rfl
  have hmem : QName.of d.document.targetNamespace name ∈ e.document.names kind := by
    rw [Schema.names_declareItems hdeclare kind]
    refine List.mem_map.mpr ⟨name, List.mem_filterMap.mpr ⟨c, hc, hname⟩, ?_⟩
    rw [Context.globalName, htarget]
  exact Catalog.finds_iff.mpr ⟨e, he, hmem⟩

end

/-! ### Two namespaces that include the same document -/

/-- Sizes, in no namespace of their own. -/
def sizeText : String :=
  "<schema xmlns=\"http://www.w3.org/2001/XMLSchema\"><simpleType name=\"Size\">" ++
    "<list itemType=\"int\"/></simpleType></schema>"

/-- Shirts include sizes and import shoes. -/
def shirtText : String :=
  "<schema xmlns=\"http://www.w3.org/2001/XMLSchema\" targetNamespace=\"urn:a\">" ++
    "<include schemaLocation=\"size.xsd\"/><import schemaLocation=\"shoe.xsd\"/></schema>"

/-- Shoes include sizes as well. -/
def shoeText : String :=
  "<schema xmlns=\"http://www.w3.org/2001/XMLSchema\" targetNamespace=\"urn:b\">" ++
    "<include schemaLocation=\"size.xsd\"/></schema>"

def wardrobe : Resolver := .ofTexts [("size.xsd", sizeText), ("shoe.xsd", shoeText)]

/-- A document of a set includes sizes for a namespace. -/
def IncludesSizes (set : SchemaSet) (ns : String) : Prop :=
  ∃ d ∈ set.documents, d.document.targetNamespace = some ns ∧
    ∃ l ∈ d.document.links, l.kind = .inclusion ∧ l.location = some "size.xsd"

instance (set : SchemaSet) (ns : String) : Decidable (IncludesSizes set ns) :=
  inferInstanceAs (Decidable (∃ d ∈ set.documents, _ ∧ ∃ l ∈ d.document.links, _ ∧ _))

theorem compile_shirtText : ∃ set, SchemaSet.compile shirtText wardrobe = .ok set ∧
    IncludesSizes set "urn:a" ∧ IncludesSizes set "urn:b" ∧
    (∀ w ∈ (set.visits wardrobe.resolve).find? fun v : Visit => v.found.location.same ⟨"size.xsd"⟩,
      w.found.text = sizeText ∧ w.passedOn = some "urn:a") ∧
    set.finds .simpleType (.of (some "urn:b") "Size") = false := by
  have hset : (SchemaSet.compile shirtText wardrobe).toOption.any fun set =>
      decide (IncludesSizes set "urn:a" ∧ IncludesSizes set "urn:b" ∧
        (∀ w ∈ (set.visits wardrobe.resolve).find? fun v : Visit =>
          v.found.location.same ⟨"size.xsd"⟩,
            w.found.text = sizeText ∧ w.passedOn = some "urn:a") ∧
        set.finds .simpleType (.of (some "urn:b") "Size") = false) := by
    decide +kernel
  obtain ⟨set, hcompile, hset⟩ := (Option.any_eq_true _ _).mp hset
  exact ⟨set, eq_ok_of_toOption hcompile, of_decide_eq_true hset⟩

theorem resolve_sizes (base : Option Path) :
    wardrobe.resolve base "size.xsd" = .ok ⟨⟨"size.xsd"⟩, sizeText⟩ := by
  simp [wardrobe, Resolver.ofTexts]

theorem read_sizeText : ∃ qualified m, Xml.qualify sizeText.toList = .ok qualified ∧
    Markup.Document.read? qualified = some m ∧ m.targetNamespace = none ∧
    ∃ c ∈ m.items, nameOf? .simpleType c = some "Size" := by
  have hread : ((Xml.qualify sizeText.toList).toOption.bind Markup.Document.read?).any fun m =>
      decide (m.targetNamespace = none ∧ ∃ c ∈ m.items, nameOf? .simpleType c = some "Size") := by
    decide +kernel
  obtain ⟨m, hm, hsize⟩ := (Option.any_eq_true _ _).mp hread
  obtain ⟨qualified, hqualified, hm⟩ := Option.bind_eq_some_iff.mp hm
  exact ⟨qualified, m, eq_ok_of_toOption hqualified, hm, of_decide_eq_true hsize⟩

/-- Shirts, which come first, find the sizes that they include. -/
theorem included_found_shirts : ∃ set, SchemaSet.compile shirtText wardrobe = .ok set ∧
    IncludesSizes set "urn:a" ∧ set.finds .simpleType (.of (some "urn:a") "Size") := by
  obtain ⟨set, hset, hincludes, -, hfirst, -⟩ := compile_shirtText
  obtain ⟨qualified, m, hqualified, hm, hown, c, hc, hname⟩ := read_sizeText
  refine ⟨set, hset, hincludes, ?_⟩
  obtain ⟨d, hd, hns, l, hl, hkind, hlocation⟩ := hincludes
  have hpassed : l.passedOn d.document.targetNamespace = some "urn:a" := by
    rw [Link.passedOn, hkind, hns]
  have hfound := included_found hset hd hl hkind hlocation (resolve_sizes d.location) hqualified hm
    (by simp [hown]) (by rw [hpassed]; exact hfirst) c hc .simpleType "Size" hname
  rw [← hns]
  exact hfound

/-- Shoes do not find them, although they include them in the same way. -/
theorem included_not_found_shoes : ∃ set, SchemaSet.compile shirtText wardrobe = .ok set ∧
    (∃ d ∈ set.documents, d.document.targetNamespace = some "urn:b" ∧
      ∃ l ∈ d.document.links, l.kind = .inclusion ∧ l.location = some "size.xsd" ∧
        wardrobe.resolve d.location "size.xsd" = .ok ⟨⟨"size.xsd"⟩, sizeText⟩) ∧
    (∃ qualified m, Xml.qualify sizeText.toList = .ok qualified ∧
      Markup.Document.read? qualified = some m ∧ m.targetNamespace = none ∧
      ∃ c ∈ m.items, nameOf? .simpleType c = some "Size") ∧
    set.finds .simpleType (.of (some "urn:b") "Size") = false := by
  obtain ⟨set, hset, -, ⟨d, hd, hns, l, hl, hkind, hlocation⟩, -, hmissing⟩ := compile_shirtText
  exact ⟨set, hset, ⟨d, hd, hns, l, hl, hkind, hlocation, resolve_sizes d.location⟩,
    read_sizeText, hmissing⟩

end SchemaShapes
