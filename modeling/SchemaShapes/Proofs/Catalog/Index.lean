import Mathlib.Data.List.Induction
import SchemaShapes.Catalog.Basic

/-! Lookups through indexes. An index that declarations are entered into one after the other leads
from a name to where it was entered first. So a name means the first of the declarations that have
it, when all of a kind are put in one list, at the place that its number there gives. -/
namespace SchemaShapes

open Schema

/-- The order of loading, then the order in a document. -/
def Position.Before (p q : Position) : Prop :=
  p.document < q.document ∨ p.document = q.document ∧ p.item < q.item

theorem Position.before_or_eq_or_before (p q : Position) : p.Before q ∨ p = q ∨ q.Before p := by
  obtain ⟨i, j⟩ := p
  obtain ⟨k, l⟩ := q
  simp only [Before, mk.injEq]
  omega

theorem Position.Before.not_before {p q : Position} (h : p.Before q) : ¬q.Before p := by
  simp only [Before] at h ⊢
  omega

/-! ### Entering declarations -/

namespace Index

variable {α δ : Type} {ix : Index} {entered : List (Option QName × Position)}
  {declared : δ → List α} {name : α → Option QName}

/-- A name that leads somewhere keeps its position. -/
theorem get?_enter (ix : Index) (name : Option QName) (p : Position) (q : QName) :
    (ix.enter name p).get? q = (ix.get? q).or (if name = some q then some p else none) := by
  cases name with
  | none => simp [enter]
  | some r =>
    rw [enter]
    by_cases hr : (ix.get? r).isSome
    · rw [if_pos hr]
      split_ifs with hname
      · obtain rfl := Option.some.inj hname
        exact (Option.or_of_isSome hr).symm
      · rw [Option.or_none]
    · have hcons : get? ⟨(r, p) :: ix.entries⟩ q = if r = q then some p else ix.get? q := by
        by_cases hrq : r = q <;> simp [get?, hrq]
      rw [if_neg hr, hcons]
      by_cases hrq : r = q
      · subst hrq
        rw [Option.not_isSome_iff_eq_none.mp hr]
        simp
      · simp [hrq]

/-- A name leads to where it was entered first. -/
def Knows (ix : Index) (entered : List (Option QName × Position)) : Prop :=
  ∀ q, ix.get? q = (entered.find? (·.1 = some q)).map (·.2)

/-- One step of entering. -/
theorem Knows.enter (h : ix.Knows entered) (name : Option QName) (p : Position) :
    (ix.enter name p).Knows (entered ++ [(name, p)]) := by
  intro q
  rw [get?_enter, h q, List.find?_append, Option.map_or]
  by_cases hname : name = some q <;> simp [hname]

theorem Knows.enterItems (h : ix.Knows entered) (document : ℕ) (items : List α) :
    (ix.enterItems name document items).Knows
      (entered ++ items.zipIdx.map fun (a, item) => (name a, ⟨document, item⟩)) := by
  induction items using List.reverseRecOn with
  | nil => simpa [Index.enterItems] using h
  | append_singleton items a ih =>
    have hstep := ih.enter (name a) ⟨document, items.length⟩
    simpa [Index.enterItems, List.zipIdx_append] using hstep

/-- What documents declare, each declaration with its position. -/
def positioned (declared : δ → List α) (documents : List δ) : List (Position × α) :=
  documents.zipIdx.flatMap fun (d, document) =>
    (declared d).zipIdx.map fun (a, item) => (⟨document, item⟩, a)

theorem positioned_concat (documents : List δ) (d : δ) :
    positioned declared (documents ++ [d]) = positioned declared documents ++
      (declared d).zipIdx.map fun (a, item) => (⟨documents.length, item⟩, a) := by
  simp [positioned, List.zipIdx_append]

/-- A run of entering: all documents. -/
theorem knows_ofDocuments (documents : List δ) : (ofDocuments declared name documents).Knows
    ((positioned declared documents).map fun (p, a) => (name a, p)) := by
  induction documents using List.reverseRecOn with
  | nil => exact fun _ => rfl
  | append_singleton documents d ih =>
    have hstep : Knows (.enterItems name _ documents.length (declared d)) _ :=
      ih.enterItems documents.length (declared d)
    rw [positioned_concat]
    simpa [ofDocuments, List.zipIdx_append, Function.comp_def] using hstep

theorem get?_ofDocuments (documents : List δ) (q : QName) :
    (ofDocuments declared name documents).get? q =
      ((positioned declared documents).find? (name ·.2 = some q)).map (·.1) := by
  rw [knows_ofDocuments documents q, List.find?_map, Option.map_map]
  rfl

end Index

/-! ### Positions and numbers -/

namespace Catalog

variable {α : Type} {c : Catalog} {declared : Document → List α} {name : α → Option QName}
  {root : ℕ → Root} {q : QName}

/-- A declaration of a kind stands at a position. -/
def DeclaredAt (c : Catalog) (declared : Document → List α) (p : Position) (a : α) : Prop :=
  ∃ d, c.documents[p.document]? = some d ∧ (declared d.document)[p.item]? = some a

/-- The declarations of a kind with their positions. -/
def positioned (c : Catalog) (declared : Document → List α) : List (Position × α) :=
  Index.positioned (declared ·.document) c.documents

theorem mem_positioned_iff {p : Position} {a : α} :
    (p, a) ∈ c.positioned declared ↔ c.DeclaredAt declared p a := by
  obtain ⟨i, j⟩ := p
  simp only [positioned, Index.positioned, DeclaredAt, List.mem_flatMap, List.mem_map, Prod.exists,
    List.mem_zipIdx_iff_getElem?, Prod.mk.injEq, Position.mk.injEq]
  constructor
  · rintro ⟨d, _, hd, _, _, ha, ⟨rfl, rfl⟩, rfl⟩
    exact ⟨d, hd, ha⟩
  · rintro ⟨d, hd, ha⟩
    exact ⟨d, i, hd, a, j, ha, ⟨rfl, rfl⟩, rfl⟩

theorem exists_declared_iff {P : α → Prop} :
    (∃ a ∈ c.documents.flatMap (declared ·.document), P a) ↔
      ∃ d ∈ c.documents, ∃ a ∈ declared d.document, P a := by
  constructor
  · rintro ⟨a, ha, h⟩
    obtain ⟨d, hd, ha⟩ := List.mem_flatMap.mp ha
    exact ⟨d, hd, a, ha, h⟩
  · rintro ⟨d, hd, a, ha, h⟩
    exact ⟨a, List.mem_flatMap.mpr ⟨d, hd, ha⟩, h⟩

/-- A name leads to the first declaration that has it. -/
theorem lookup_eq (c : Catalog) (declared : Document → List α) (name : α → Option QName)
    (q : QName) :
    c.lookup declared name q = (c.positioned declared).find? (name ·.2 = some q) := by
  rw [lookup, index, Index.get?_ofDocuments]
  change Option.bind (((c.positioned declared).find? (name ·.2 = some q)).map (·.1)) _ = _
  cases hfind : (c.positioned declared).find? (name ·.2 = some q) with
  | none => rfl
  | some x =>
    obtain ⟨d, hd, ha⟩ := mem_positioned_iff.mp (List.mem_of_find?_eq_some hfind)
    simp [hd, ha]

/-- Numbers count the declarations of a kind through all documents, one after the other. -/
theorem zipIdx_declared (c : Catalog) (declared : Document → List α) :
    (c.documents.flatMap (declared ·.document)).zipIdx =
      (c.positioned declared).map fun x => (x.2, c.number declared x.1) := by
  obtain ⟨documents⟩ := c
  induction documents using List.reverseRecOn with
  | nil => rfl
  | append_singleton documents d ih =>
    have hbefore : ∀ x ∈ positioned ⟨documents⟩ declared,
        (x.2, number ⟨documents⟩ declared x.1) =
          (x.2, number ⟨documents ++ [d]⟩ declared x.1) := by
      rintro ⟨p, a⟩ hx
      obtain ⟨e, he, -⟩ := mem_positioned_iff.mp hx
      obtain ⟨hlt, -⟩ := List.getElem?_eq_some_iff.mp he
      simp only [number, List.take_append_of_le_length (Nat.le_of_lt hlt)]
    have hlast : ∀ item, number ⟨documents ++ [d]⟩ declared ⟨documents.length, item⟩ =
        (documents.flatMap (declared ·.document)).length + item := by
      simp [number]
    rw [positioned, Index.positioned_concat, List.map_append, List.map_map, List.flatMap_append,
      List.flatMap_singleton, List.zipIdx_append, Nat.zero_add, ih, List.map_congr_left hbefore,
      List.zipIdx_eq_map_add]
    simp only [Function.comp_def, hlast]
    rfl

/-! ### Lookups and lists -/

/-- The first of some declarations that has a name, at the place that its number is given. -/
def firstNamed (name : α → Option QName) (root : ℕ → Root) (q : QName) (declarations : List α) :
    Option (Located α) :=
  (declarations.zipIdx.find? fun (a, _) => name a = some q).map fun (a, i) => ⟨.top (root i), a⟩

theorem firstNamed_eq_some {declarations : List α} {x : Located α}
    (h : firstNamed name root q declarations = some x) :
    ∃ i, declarations[i]? = some x.value ∧ x.place = .top (root i) ∧ name x.value = some q := by
  obtain ⟨⟨a, i⟩, hfind, rfl⟩ := Option.map_eq_some_iff.mp h
  refine ⟨i, List.mem_zipIdx_iff_getElem?.mp (List.mem_of_find?_eq_some hfind), rfl, ?_⟩
  simpa using List.find?_some hfind

theorem map_located_lookup : (c.lookup declared name q).map (c.located declared root) =
    firstNamed name root q (c.documents.flatMap (declared ·.document)) := by
  rw [lookup_eq, firstNamed, zipIdx_declared, List.find?_map, Option.map_map]
  rfl

theorem map_value_lookup : (c.lookup declared name q).map (·.2) =
    (c.documents.flatMap (declared ·.document)).find? (name · = some q) := by
  have hvalues : (c.positioned declared).map (·.2) =
      c.documents.flatMap (declared ·.document) := by
    rw [← List.zipIdx_map_fst 0 (c.documents.flatMap _), zipIdx_declared, List.map_map]
    rfl
  rw [lookup_eq, ← hvalues, List.find?_map]
  rfl

/-- A lookup finds something under each name that is declared, and under no other. -/
theorem isSome_lookup_iff : (c.lookup declared name q).isSome ↔
    ∃ a ∈ c.documents.flatMap (declared ·.document), name a = some q := by
  rw [← Option.isSome_map, map_value_lookup, List.find?_isSome]
  simp only [decide_eq_true_eq]

theorem map_value_located :
    ((c.lookup declared name q).map (c.located declared root)).map (·.value) =
      (c.documents.flatMap (declared ·.document)).find? (name · = some q) := by
  rw [Option.map_map, ← map_value_lookup]
  rfl

theorem findElement_eq_firstNamed (c : Catalog) (q : QName) :
    c.findElement q = firstNamed (some ·.name) .element q c.elements :=
  map_located_lookup

theorem findComplexType_eq_firstNamed (c : Catalog) (q : QName) :
    c.findComplexType q = firstNamed ComplexType.name .complexType q c.complexTypes :=
  map_located_lookup

theorem findSimpleType_eq_find? (c : Catalog) (q : QName) :
    c.findSimpleType q = c.simpleTypes.find? (·.name = some q) :=
  map_value_lookup

theorem findGroup_eq_firstNamed (c : Catalog) (q : QName) :
    c.findGroup q = firstNamed (some ·.name) .group q c.groups :=
  map_located_lookup

theorem findAttributeGroup_eq_find? (c : Catalog) (q : QName) :
    c.findAttributeGroup q = c.attributeGroups.find? (·.name = q) := by
  have hfind : c.findAttributeGroup q = _ := map_value_lookup
  simpa only [attributeGroups, Option.some.injEq] using hfind

theorem findAttribute_eq_find? (c : Catalog) (q : QName) :
    c.findAttribute q = c.attributes.find? (·.name = q) := by
  have hfind : c.findAttribute q = _ := map_value_lookup
  simpa only [attributes, Option.some.injEq] using hfind

theorem findElement_eq_some {e : Located Element} (h : c.findElement q = some e) :
    e.value ∈ c.elements ∧ e.value.name = q := by
  rw [findElement_eq_firstNamed] at h
  obtain ⟨i, hi, -, hname⟩ := firstNamed_eq_some h
  exact ⟨List.mem_of_getElem? hi, Option.some.inj hname⟩

theorem findComplexType_eq_some {t : Located ComplexType} (h : c.findComplexType q = some t) :
    t.value ∈ c.complexTypes ∧ t.value.name = some q := by
  rw [findComplexType_eq_firstNamed] at h
  obtain ⟨i, hi, -, hname⟩ := firstNamed_eq_some h
  exact ⟨List.mem_of_getElem? hi, hname⟩

theorem findSimpleType_eq_some {t : SimpleType} (h : c.findSimpleType q = some t) :
    t ∈ c.simpleTypes ∧ t.name = some q := by
  rw [findSimpleType_eq_find?] at h
  exact ⟨List.mem_of_find?_eq_some h, by simpa using List.find?_some h⟩

theorem findGroup_eq_some {g : Located GroupDefinition} (h : c.findGroup q = some g) :
    g.value ∈ c.groups ∧ g.value.name = q := by
  rw [findGroup_eq_firstNamed] at h
  obtain ⟨i, hi, -, hname⟩ := firstNamed_eq_some h
  exact ⟨List.mem_of_getElem? hi, Option.some.inj hname⟩

theorem findAttributeGroup_eq_some {g : AttributeGroup} (h : c.findAttributeGroup q = some g) :
    g ∈ c.attributeGroups ∧ g.name = q := by
  rw [findAttributeGroup_eq_find?] at h
  exact ⟨List.mem_of_find?_eq_some h, by simpa using List.find?_some h⟩

theorem findAttribute_eq_some {a : Attribute} (h : c.findAttribute q = some a) :
    a ∈ c.attributes ∧ a.name = q := by
  rw [findAttribute_eq_find?] at h
  exact ⟨List.mem_of_find?_eq_some h, by simpa using List.find?_some h⟩

end Catalog

end SchemaShapes
