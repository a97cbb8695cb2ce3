import SchemaShapes.Proofs.Catalog.Rearrangement
import SchemaShapes.Proofs.Tree.Locality

/-! Results depend on what is in reach. Two sets that find the same under every name in reach of an
element convert it alike, wherever they have their declarations. So the order of declarations,
shadowed declarations and documents about something else make no difference. -/
namespace SchemaShapes

open Catalog (FindsAlike)
open Relation (ReflTransGen)
open Schema (ComponentKind Document)

/-- Declared names have proper namespaces. -/
theorem Schema.Document.proper_of_parse {text : String} {ns : Option String} {d : Document}
    (h : Document.parse text ns = .ok d) (kind : ComponentKind) : ∀ q ∈ d.names kind, q.Proper := by
  obtain ⟨qualified, m, hqualified, hm⟩ := Document.exists_markup_of_parse h
  rw [names_declareItems (Document.declare_of_parse h hqualified hm) kind]
  intro q hq
  obtain ⟨name, -, rfl⟩ := List.mem_map.mp hq
  exact QName.ns_of_ne_empty _ _

namespace SchemaSet

variable {s s' : SchemaSet} {text : String} {r : Resolver}

/-- The set of the documents that some root leads to. -/
def Compiled (s : SchemaSet) : Prop := ∃ r location text, ofRoot r location text = .ok s

theorem compiled_of_compile (h : compile text r = .ok s) : s.Compiled := ⟨r, none, text, h⟩

theorem Compiled.exists_parse (h : s.Compiled) {d : LoadedDocument} (hd : d ∈ s.documents) :
    ∃ text ns, Document.parse text ns = .ok d.document := by
  obtain ⟨r, location, text, h⟩ := h
  obtain ⟨document, documents, hparse, horder, hset⟩ := breadthFirst_of_ofRoot h
  rw [hset] at hd
  obtain ⟨p, hp, rfl⟩ := List.mem_map.mp hd
  rcases horder.reachable p hp with rfl | ⟨v, -, -, hloads, -⟩
  · exact ⟨text, none, hparse⟩
  · exact ⟨v.found.text, v.passedOn, hloads.2⟩

theorem Compiled.proper (h : s.Compiled) : ∀ e ∈ s.elements, e.name.Proper := by
  intro e he
  obtain ⟨d, hd, he⟩ := List.mem_flatMap.mp he
  obtain ⟨text, ns, hparse⟩ := h.exists_parse hd
  exact Document.proper_of_parse hparse .element e.name (List.mem_map_of_mem he)

/-- The results for an element are the same in two sets that find the same under the names in reach
of it. They stay the same if documents are rearranged, which makes a set again, and if documents are
added that declare new names. -/
theorem inference_local (s : SchemaSet) (hs : s.Compiled) {q : QName} {e : Located Schema.Element}
    (he : s.findElement q = some e) :
    (∀ s' : SchemaSet, s'.Compiled → (∀ r, ReflTransGen s.RefersTo ⟨.element, q⟩ r →
      ∀ kind ∈ r.kind.sorts, FindsAlike s.toCatalog s'.toCatalog r.name kind) →
        SameResults s s' q) ∧
    (∀ documents, Rearranged s.documents documents →
      ∃ s', ofDocuments documents = .ok s' ∧ SameResults s s' q) ∧
    ∀ s' : SchemaSet, s'.Compiled → Extended s.NewTo s.documents s'.documents →
      SameResults s s' q := by
  refine ⟨fun s' hs' hfind => ?_, fun documents hdocuments => ?_, fun s' hs' hextended => ?_⟩
  · exact sameResults_of_reach hs.proper hs'.proper he fun r hr =>
      Catalog.meaning_eq_of_findsAlike (hfind r hr)
  · have hfault : (Catalog.mk documents).fault = none :=
      Catalog.fault_eq_none_of_preserved hdocuments.preserved s.fault_eq_none
    obtain ⟨s', hs', hcatalog⟩ := ofDocuments_ok_iff.mpr hfault
    have hpreserved : Preserved s.documents s'.documents := by
      rw [hcatalog]
      exact hdocuments.preserved
    refine ⟨s', hs', sameResults_of_reach hs.proper (fun x hx => ?_) he fun r _ =>
      Catalog.meaning_eq_of_findsAlike fun kind _ =>
        Catalog.findsAlike_of_preserved hpreserved r.name kind⟩
    exact hs.proper x (hpreserved.elements.2 hx)
  · exact sameResults_of_reach hs.proper hs'.proper he fun r hr =>
      Catalog.meaning_eq_of_extended hextended
        (Catalog.defines_of_reach s.fault_eq_none (Catalog.defines_of_findElement he) hr)

/-! ### Labels, alone and on a shelf -/

/-- The documents of a set that is compiled from a text are the root and what the first visits
load. -/
theorem documents_of_compile (h : compile text r = .ok s) : ∃ d rest,
    Document.parse text none = .ok d ∧ s.documents = ⟨none, d⟩ :: rest ∧
      List.Forall₂ Visit.Loads (firstVisits [] (s.visits r.resolve)) rest := by
  have htail := forall₂_of_compile h
  obtain ⟨d, documents, hparse, horder, hset⟩ := breadthFirst_of_ofRoot h
  obtain ⟨rest, hrest, -⟩ := horder.order
  refine ⟨d, rest.map Pending.loaded, hparse, ?_, ?_⟩
  · rw [hset, hrest]
    rfl
  · rw [hset, hrest] at htail
    exact htail

/-- The declarations in reverse order. -/
def reversed (d : LoadedDocument) : LoadedDocument :=
  ⟨d.location, d.document.targetNamespace, d.document.elements.reverse,
    d.document.complexTypes.reverse, d.document.simpleTypes.reverse, d.document.groups.reverse,
    d.document.attributeGroups.reverse, d.document.attributes.reverse, d.document.links⟩

theorem permuted_reversed {documents : List LoadedDocument}
    (h : ∀ d ∈ documents, ∀ kind, (d.document.names kind).Nodup) :
    Permuted documents (documents.map reversed) := by
  have hforall : ∀ {P : LoadedDocument → LoadedDocument → Prop},
      (∀ d ∈ documents, P d (reversed d)) → List.Forall₂ P documents (documents.map reversed) :=
    fun hP => List.forall₂_map_right_iff.mpr (List.forall₂_same.mpr hP)
  exact {
    elements := hforall fun d hd => ⟨(List.reverse_perm _).symm, by
      simpa [Document.names] using h d hd .element⟩
    complexTypes := hforall fun d hd => ⟨(List.reverse_perm _).symm, h d hd .complexType⟩
    simpleTypes := hforall fun d hd => ⟨(List.reverse_perm _).symm, h d hd .simpleType⟩
    groups := hforall fun d hd => ⟨(List.reverse_perm _).symm, by
      simpa [Document.names] using h d hd .group⟩
    attributeGroups := hforall fun d hd => ⟨(List.reverse_perm _).symm, by
      simpa [Document.names] using h d hd .attributeGroup⟩
    attributes := hforall fun d hd => ⟨(List.reverse_perm _).symm, by
      simpa [Document.names] using h d hd .attribute⟩ }

/-- A price, and a label that has one. -/
def labelText : String :=
  "<xs:schema xmlns:xs=\"http://www.w3.org/2001/XMLSchema\">" ++
    "<xs:element name=\"price\" type=\"xs:decimal\"/><xs:element name=\"label\">" ++
    "<xs:complexType><xs:sequence><xs:element ref=\"price\"/></xs:sequence></xs:complexType>" ++
    "</xs:element></xs:schema>"

/-- A shelf with a label. -/
def shelfText : String :=
  "<xs:schema xmlns:xs=\"http://www.w3.org/2001/XMLSchema\">" ++
    "<xs:include schemaLocation=\"label.xsd\"/><xs:element name=\"shelf\">" ++
    "<xs:complexType><xs:sequence><xs:element ref=\"label\"/></xs:sequence></xs:complexType>" ++
    "</xs:element></xs:schema>"

/-- A document declares these elements and nothing else that has a name. -/
def DeclaresOnly (d : Document) (elements : List QName) : Prop :=
  d.names .element = elements ∧ d.names .attribute = [] ∧ d.names .group = [] ∧
    d.names .attributeGroup = [] ∧ d.names .complexType = [] ∧ d.names .simpleType = []

instance (d : Document) (elements : List QName) : Decidable (DeclaresOnly d elements) :=
  inferInstanceAs (Decidable (_ ∧ _))

theorem DeclaresOnly.names_eq {d : Document} {elements : List QName} (h : DeclaresOnly d elements) :
    ∀ kind, d.names kind = if kind = .element then elements else []
  | .element => h.1
  | .attribute => h.2.1
  | .group => h.2.2.1
  | .attributeGroup => h.2.2.2.1
  | .complexType => h.2.2.2.2.1
  | .simpleType => h.2.2.2.2.2

def shop : Resolver := .ofTexts [("label.xsd", labelText)]

/-- The document of the label is the only one, or the second one after that of the shelf. The label
has a shape. -/
theorem compile_labelText : ∃ s s' label shelf place,
    compile labelText (.ofTexts []) = .ok s ∧ compile shelfText shop = .ok s' ∧
    s.documents = [⟨none, label⟩] ∧ s'.documents = [⟨none, shelf⟩, ⟨place, label⟩] ∧
    DeclaresOnly label [⟨none, "price"⟩, ⟨none, "label"⟩] ∧
    DeclaresOnly shelf [⟨none, "shelf"⟩] ∧
    ∃ shape, s.infer (.ofName ⟨none, "label"⟩) = .ok shape := by
  have hs : (compile labelText (.ofTexts [])).toOption.any fun s =>
      decide ((firstVisits [] (s.visits (Resolver.ofTexts []).resolve)).length = 0 ∧
        (∀ d ∈ s.documents.head?, DeclaresOnly d.document [⟨none, "price"⟩, ⟨none, "label"⟩]) ∧
        (s.infer (.ofName ⟨none, "label"⟩)).toOption.isSome) := by
    decide +kernel
  have hs' : (compile shelfText shop).toOption.any fun s =>
      decide ((firstVisits [] (s.visits shop.resolve)).map
        (fun v => (v.found.text, v.passedOn)) = [(labelText, none)] ∧
        ∀ d ∈ s.documents.head?, DeclaresOnly d.document [⟨none, "shelf"⟩]) := by
    decide +kernel
  obtain ⟨s, hs, hlabel⟩ := (Option.any_eq_true _ _).mp hs
  obtain ⟨s', hs', hshelf⟩ := (Option.any_eq_true _ _).mp hs'
  have hs := eq_ok_of_toOption hs
  have hs' := eq_ok_of_toOption hs'
  obtain ⟨hvisits, hlabel, hshape⟩ := of_decide_eq_true hlabel
  obtain ⟨shape, hshape⟩ := Option.isSome_iff_exists.mp hshape
  obtain ⟨hvisits', hshelf⟩ := of_decide_eq_true hshelf
  obtain ⟨label, rest, hparse, hdocuments, hrest⟩ := documents_of_compile hs
  obtain ⟨shelf, rest', -, hdocuments', hrest'⟩ := documents_of_compile hs'
  rw [hdocuments] at hlabel
  rw [hdocuments'] at hshelf
  rw [List.eq_nil_of_length_eq_zero hvisits] at hrest
  obtain ⟨v, hv, hvisit⟩ := List.map_eq_singleton_iff.mp hvisits'
  rw [hv] at hrest'
  obtain rfl := List.forall₂_nil_left_iff.mp hrest
  obtain ⟨loaded, rest', hloads, hnil, rfl⟩ := List.forall₂_cons_left_iff.mp hrest'
  obtain rfl := List.forall₂_nil_left_iff.mp hnil
  have hloaded : loaded.document = label := by
    have hdocument := hloads.2
    rw [(Prod.mk.inj hvisit).1, (Prod.mk.inj hvisit).2, hparse] at hdocument
    exact (Except.ok.inj hdocument).symm
  exact ⟨s, s', label, shelf, loaded.location, hs, hs', hdocuments, hloaded ▸ hdocuments',
    hlabel _ rfl, hshelf _ rfl, shape, eq_ok_of_toOption hshape⟩

/-- A label is what it was with its declarations reversed, and with a shelf. -/
theorem inference_local_label : ∃ (s s' t : SchemaSet) (q : QName),
    compile labelText (.ofTexts []) = .ok s ∧ compile shelfText shop = .ok s' ∧
    ofDocuments (s.documents.map reversed) = .ok t ∧
    (∀ r, ReflTransGen s.RefersTo ⟨.element, q⟩ r →
      ∀ kind ∈ r.kind.sorts, FindsAlike s.toCatalog s'.toCatalog r.name kind) ∧
    Rearranged s.documents (s.documents.map reversed) ∧
    Extended s.NewTo s.documents s'.documents ∧ (∃ shape, s.infer (.ofName q) = .ok shape) ∧
    SameResults s s' q ∧ SameResults s t q := by
  obtain ⟨s, s', label, shelf, place, hs, hs', hdocuments, hdocuments', hlabel, hshelf, hshape⟩ :=
    compile_labelText
  have hfinds : ∀ {kind q}, s.finds kind q ↔
      kind = .element ∧ (q = ⟨none, "price"⟩ ∨ q = ⟨none, "label"⟩) := by
    intro kind q
    rw [Catalog.finds_iff, hdocuments]
    by_cases hkind : kind = .element <;> simp [hlabel.names_eq, hkind]
  obtain ⟨e, he⟩ := Option.isSome_iff_exists.mp
    (show (s.findElement ⟨none, "label"⟩).isSome from hfinds.mpr ⟨rfl, .inr rfl⟩)
  have hextended : ∀ {new : Document → Prop}, new shelf →
      Extended new s.documents s'.documents := by
    intro new hnew
    rw [hdocuments, hdocuments']
    exact .add hnew (.keep rfl .nil)
  have hnew : s.NewTo shelf := by
    intro kind kind' _ q hq
    rw [Bool.eq_false_iff, Ne, hfinds]
    by_cases hkind : kind = .element <;> simp_all [hshelf.names_eq]
  have hpermuted : Rearranged s.documents (s.documents.map reversed) := by
    refine .single (.inl (permuted_reversed ?_))
    rw [hdocuments, List.forall_mem_singleton]
    intro kind
    rw [hlabel.names_eq]
    split_ifs <;> decide
  have hreach : ∀ r, ReflTransGen s.RefersTo ⟨.element, ⟨none, "label"⟩⟩ r →
      ∀ kind ∈ r.kind.sorts, FindsAlike s.toCatalog s'.toCatalog r.name kind := by
    intro r hr kind hkind
    have honly : Extended (· = shelf) s.documents s'.documents := hextended rfl
    refine Catalog.findsAlike_of_extended honly ?_
    rintro d rfl hmem
    have hdefines :=
      Catalog.defines_of_reach s.fault_eq_none (Catalog.defines_of_findElement he) hr
    obtain ⟨kind', q⟩ := r
    obtain ⟨rfl, rfl⟩ : kind = .element ∧ q = ⟨none, "shelf"⟩ := by
      rw [hshelf.names_eq] at hmem
      split_ifs at hmem with helement
      · exact ⟨helement, List.mem_singleton.mp hmem⟩
      · cases hmem
    obtain rfl : kind' = .element := by
      cases kind' <;> simp_all [ReferenceKind.sorts]
    exact absurd (hfinds.mp (Catalog.defines_element.symm.trans hdefines)) (by decide)
  obtain ⟨hlocal, hrearranged, -⟩ := inference_local s (compiled_of_compile hs) he
  obtain ⟨t, ht, hresults⟩ := hrearranged _ hpermuted
  exact ⟨s, s', t, ⟨none, "label"⟩, hs, hs', ht, hreach, hpermuted, hextended hnew,
    hshape, hlocal s' (compiled_of_compile hs') hreach, hresults⟩

end SchemaSet

end SchemaShapes
