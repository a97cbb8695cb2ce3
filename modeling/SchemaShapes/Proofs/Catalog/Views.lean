import SchemaShapes.Proofs.Catalog.Derivation
import SchemaShapes.SchemaSet.Basic

/-! Views as recursions. The views of a component are made from the views of what it is derived from
or brings, with no bound on how far that goes. They can be, since in a schema set nothing is derived
from itself or brings itself: where something does, no set is made of the documents. -/
namespace SchemaShapes

open Relation (TransGen)
open Schema

namespace Catalog

variable {c : Catalog}

/-! ### Codes of simple types -/

theorem namedSimpleCode_of_builtin {q : QName} {code : TypeCode}
    (h : TypeCode.builtin? q = some code) : c.namedSimpleCode q = code := by
  have hstops : ∃ rest, (Graph.walk c.simpleBase c.simpleTypeNames [] q).stops = q :: rest := by
    rw [Graph.walk, dif_neg (by simp)]
    by_cases hd : q ∈ c.simpleTypeNames
    · rw [dif_pos hd]
      cases hl : c.simpleBase q with
      | none => exact ⟨[], rfl⟩
      | some l => exact ⟨_, rfl⟩
    · rw [dif_neg hd]
      exact ⟨[], rfl⟩
  obtain ⟨rest, hrest⟩ := hstops
  simp [namedSimpleCode, hrest, h]

/-- The code of a name is that of the builtin type that it means, else that of the simple type. -/
theorem namedSimpleCode_eq (h : c.fault = none) (q : QName) :
    c.namedSimpleCode q = match TypeCode.builtin? q with
      | some code => code
      | none =>
        match c.findSimpleType q with
        | some t => c.simpleTypeCode t
        | none => .anyAtomicType := by
  cases hq : TypeCode.builtin? q with
  | some code => exact namedSimpleCode_of_builtin hq
  | none =>
    cases hl : c.simpleBase q with
    | none =>
      have hcode : c.namedSimpleCode q = .anyAtomicType := by
        simp [namedSimpleCode, Graph.walk_of_none hl, hq]
      rw [hcode]
      cases ht : c.findSimpleType q with
      | none => rfl
      | some t =>
        have hbase : t.base = none := by simpa [simpleBase, ht] using hl
        simp [simpleTypeCode, hbase]
    | some l =>
      obtain ⟨t, ht, hbase⟩ := Option.bind_eq_some_iff.mp hl
      have hwalk := Graph.walk_of_follows (mem_names_of_simpleBase hl) hl (walk_simpleBase_ends h q)
      simp [ht, simpleTypeCode, hbase, namedSimpleCode, hwalk, Graph.Walk.after, hq]

/-! ### Lineages -/

theorem bases_of_base {t : ComplexType} {q : QName} (h : t.base = some q) :
    c.bases t =
      (Graph.walk c.baseOfNamed c.complexTypeNames [] q).stops.filterMap c.complexNamed := by
  simp [bases, h]

/-- A type whose base is not complex is derived from no complex type. -/
theorem bases_eq_nil {t : ComplexType} (h : t.base.bind c.complexNamed = none) :
    c.bases t = [] := by
  cases hq : t.base with
  | none => simp [bases, hq]
  | some q =>
    have hq' : c.complexNamed q = none := by simpa [hq] using h
    have hl : c.baseOfNamed q = none := by simp [baseOfNamed, hq']
    simp [bases_of_base hq, Graph.walk_of_none hl, hq']

/-- The complex bases of a type are its base and the bases of that. -/
theorem bases_eq_cons (h : c.fault = none) {t : ComplexType} {q : QName} {u : Located ComplexType}
    (hq : t.base = some q) (hu : c.complexNamed q = some u) :
    c.bases t = c.lineage u := by
  rw [bases_of_base hq, lineage]
  cases hl : c.baseOfNamed q with
  | none =>
    have hbase : u.value.base = none := by simpa [baseOfNamed, hu] using hl
    simp [Graph.walk_of_none hl, hu, bases, hbase]
  | some l =>
    have hbase : u.value.base = some l := by simpa [baseOfNamed, hu] using hl
    have hwalk := Graph.walk_of_follows (mem_names_of_baseOfNamed hl) hl (walk_baseOfNamed_ends h q)
    simp [hwalk, Graph.Walk.after, hu, bases_of_base hbase]

/-! ### Expanded attribute groups -/

/-- A name without a group brings nothing, however deep one looks. -/
theorem usesToDepth_of_undefined {q : QName} (h : c.findAttributeGroup q = none) (m : ℕ) :
    c.usesToDepth m (.group q) = [] := by
  cases m with
  | zero => rw [usesToDepth]
  | succ m => simp only [usesToDepth, h]

/-- Looking deeper than the groups are nested brings nothing new. -/
theorem usesToDepth_of_heightLe {n : ℕ} {q : QName} (h : Graph.HeightLe c.GroupStep n q) {m : ℕ}
    (hm : n ≤ m) : c.usesToDepth m (.group q) = c.usesToDepth n (.group q) := by
  induction h generalizing m with
  | @intro n q _ ih =>
    obtain ⟨m, rfl⟩ : ∃ k, m = k + 1 := ⟨m - 1, by omega⟩
    cases hg : c.findAttributeGroup q with
    | none => rw [usesToDepth_of_undefined hg, usesToDepth_of_undefined hg]
    | some g =>
      simp only [usesToDepth, hg]
      refine List.flatMap_congr fun i hi => ?_
      cases i with
      | declared a usage => simp only [usesToDepth]
      | reference l usage => simp only [usesToDepth]
      | group l =>
        cases hl : c.findAttributeGroup l with
        | none => rw [usesToDepth_of_undefined hl, usesToDepth_of_undefined hl]
        | some g' =>
          refine ih l ⟨?_, mem_names_of_findAttributeGroup hl⟩ (by omega)
          rw [groupsInside_eq hg]
          exact mem_groupNames_iff.mpr hi

/-- A group brings what its items bring. -/
theorem usesOfItems_group (h : c.fault = none) {q : QName} {g : AttributeGroup}
    (hg : c.findAttributeGroup q = some g) :
    c.usesToDepth c.attributeGroups.length (.group q) = c.usesOfItems g.items := by
  have hheight := heightLe_groupStep h (mem_names_of_findAttributeGroup hg)
  rw [← usesToDepth_of_heightLe hheight (Nat.le_succ _)]
  simp only [usesToDepth, hg, usesOfItems]

/-- The uses that an item brings. -/
def usesOfItem (c : Catalog) : AttributeItem → List AttributeUse
  | .declared a usage => [c.useOf usage a]
  | .reference q usage => ((c.findAttribute q).map (c.useOf usage)).toList
  | .group q =>
    match c.findAttributeGroup q with
    | some g => c.usesOfItems g.items
    | none => []

theorem usesOfItems_eq (h : c.fault = none) (items : List AttributeItem) :
    c.usesOfItems items = items.flatMap c.usesOfItem := by
  rw [usesOfItems]
  refine List.flatMap_congr fun i _ => ?_
  cases i with
  | declared a usage => simp only [usesToDepth, usesOfItem]
  | reference q usage => simp only [usesToDepth, usesOfItem]
  | group q =>
    rw [usesOfItem]
    cases hg : c.findAttributeGroup q with
    | none => exact usesToDepth_of_undefined hg _
    | some g => exact usesOfItems_group h hg

/-! ### Views of complex types -/

/-- The bases of a type with a base are the lineage of the complex type that the base means. -/
theorem bases_eq (h : c.fault = none) {t : ComplexType} {base : QName} (hb : t.base = some base) :
    c.bases t = match c.namedType base with
      | .complex u => c.lineage u
      | _ => [] := by
  cases hn : c.namedType base with
  | complex u => exact bases_eq_cons h hb (namedType_eq_complex_iff.mp hn)
  | _ =>
    have hnone : c.complexNamed base = none := by
      cases hu : c.complexNamed base with
      | none => rfl
      | some u => simp [namedType_eq_complex_iff.mpr hu] at hn
    rw [bases_eq_nil (by rw [hb, Option.bind_some, hnone])]

theorem base_of_simple {t : ComplexType} {method : Markup.Method} {base : QName}
    {type : Option SimpleType} (h : t.content = .simple method base type) :
    t.base = some base ∧ t.ownParticle = none := by
  cases t
  cases h
  exact ⟨rfl, rfl⟩

theorem base_of_complex {t : ComplexType} {method : Markup.Method} {base : QName}
    {particle : Option Particle} (h : t.content = .complex method base particle) :
    t.base = some base ∧ t.ownParticle = particle := by
  cases t
  cases h
  exact ⟨rfl, rfl⟩

/-- An extension has the content of its base in front of its own. -/
theorem content_eq (h : c.fault = none) (t : Located ComplexType) :
    c.content t = match t.value.content with
      | .simple _ _ _ => []
      | .complex .extension base _ =>
        (match c.namedType base with
          | .complex u => c.content u
          | _ => []) ++ ownContent t
      | _ => ownContent t := by
  rw [content, lineage, contentOf]
  cases hc : t.value.content with
  | particle p => rfl
  | simple method base type => simp [ownContent, (base_of_simple hc).2]
  | complex method base p =>
    cases method with
    | restriction => rfl
    | extension =>
      simp only [bases_eq h (base_of_complex hc).1]
      cases c.namedType base <;> rfl

/-- Simple content is text only if its base is, and all other content shows by its particles. -/
theorem contentType_eq (h : c.fault = none) (t : Located ComplexType) :
    c.contentType t = match t.value.content with
      | .simple _ base _ =>
        match c.namedType base with
        | .simple _ => .textOnly
        | .complex u => if c.contentType u = .textOnly then .textOnly else .unknown
        | .unknown => .unknown
      | .complex _ base _ =>
        match c.namedType base with
        | .complex _ => contentTypeOfParticles t.value.mixed (c.content t)
        | _ => .unknown
      | .particle _ => contentTypeOfParticles t.value.mixed (c.content t) := by
  rw [contentType, lineage, contentTypeOf]
  cases hc : t.value.content with
  | particle p => rfl
  | complex method base p => rfl
  | simple method base type =>
    simp only [bases_eq h (base_of_simple hc).1]
    cases c.namedType base <;> rfl

/-- The code of simple content is that of its own type or else that of its base. -/
theorem textCode_eq (h : c.fault = none) (t : Located ComplexType) :
    c.textCode t = match t.value.content with
      | .simple _ _ (some type) => c.simpleTypeCode type
      | .simple _ base none =>
        match c.namedType base with
        | .simple code => code
        | .complex u => c.textCode u
        | .unknown => .anyAtomicType
      | _ => .string := by
  rw [textCode, lineage, textCodeOf]
  cases hc : t.value.content with
  | particle p => rfl
  | complex method base p => rfl
  | simple method base type =>
    cases type with
    | some type => rfl
    | none =>
      simp only [bases_eq h (base_of_simple hc).1]
      cases c.namedType base <;> rfl

/-- The attributes of a type are put behind, or in the place of, those of its base. -/
theorem attributeUses_eq (h : c.fault = none) (t : Located ComplexType) :
    c.attributeUses t =
      Keyed.putAll AttributeUse.name (c.usesOfItems t.value.attributes)
        (match t.value.base.map c.namedType with
          | some (.complex u) => c.attributeUses u
          | _ => []) := by
  rw [attributeUses, lineage, attributeUsesOf]
  congr 1
  cases hb : t.value.base with
  | none => simp [bases_eq_nil, hb, attributeUsesOf]
  | some base =>
    rw [bases_eq h hb, Option.map_some]
    cases c.namedType base <;> rfl

/-! ### Schema sets -/

/-- The views are recursions without a bound: those of a simple type go on with what it is
restricted from, those of a complex type with what it is derived from, and the uses of items with
the attribute groups that these bring. -/
structure ViewsUnfold (c : Catalog) : Prop where
  simpleTypeCode (t : SimpleType) : c.simpleTypeCode t = match t with
    | .restriction _ q => c.namedSimpleCode q
    | .refinement _ u => c.simpleTypeCode u
    | .list _ => .anyAtomicType
    | .union _ => .anyAtomicType
  namedSimpleCode (q : QName) : c.namedSimpleCode q = match TypeCode.builtin? q with
    | some code => code
    | none =>
      match c.findSimpleType q with
      | some t => c.simpleTypeCode t
      | none => .anyAtomicType
  content (t : Located ComplexType) : c.content t = match t.value.content with
    | .simple _ _ _ => []
    | .complex .extension base _ =>
      (match c.namedType base with
        | .complex u => c.content u
        | _ => []) ++ ownContent t
    | _ => ownContent t
  contentType (t : Located ComplexType) : c.contentType t = match t.value.content with
    | .simple _ base _ =>
      match c.namedType base with
      | .simple _ => .textOnly
      | .complex u => if c.contentType u = .textOnly then .textOnly else .unknown
      | .unknown => .unknown
    | .complex _ base _ =>
      match c.namedType base with
      | .complex _ => contentTypeOfParticles t.value.mixed (c.content t)
      | _ => .unknown
    | .particle _ => contentTypeOfParticles t.value.mixed (c.content t)
  textCode (t : Located ComplexType) : c.textCode t = match t.value.content with
    | .simple _ _ (some type) => c.simpleTypeCode type
    | .simple _ base none =>
      match c.namedType base with
      | .simple code => code
      | .complex u => c.textCode u
      | .unknown => .anyAtomicType
    | _ => .string
  attributeUses (t : Located ComplexType) : c.attributeUses t =
    Keyed.putAll AttributeUse.name (c.usesOfItems t.value.attributes)
      (match t.value.base.map c.namedType with
        | some (.complex u) => c.attributeUses u
        | _ => [])
  usesOfItems (items : List AttributeItem) : c.usesOfItems items = items.flatMap c.usesOfItem

theorem simpleTypeCode_eq (t : SimpleType) : c.simpleTypeCode t = match t with
    | .restriction _ q => c.namedSimpleCode q
    | .refinement _ u => c.simpleTypeCode u
    | .list _ => .anyAtomicType
    | .union _ => .anyAtomicType := by
  cases t <;> rfl

theorem viewsUnfold (h : c.fault = none) : c.ViewsUnfold where
  simpleTypeCode := simpleTypeCode_eq
  namedSimpleCode := namedSimpleCode_eq h
  content := content_eq h
  contentType := contentType_eq h
  textCode := textCode_eq h
  attributeUses := attributeUses_eq h
  usesOfItems := usesOfItems_eq h

/-- Something that the views follow comes back to where it started. -/
inductive Circular (c : Catalog) : Prop
  | complexType {t : Located ComplexType} (h : TransGen c.DerivesFrom t t)
  | simpleType {t : SimpleType} (h : TransGen c.RestrictedFrom t t)
  | attributeGroup {g : AttributeGroup} (h : TransGen c.Brings g g)

/-- Nothing is followed by itself where only finitely much follows one after the other. -/
theorem not_transGen_of_wellFounded {α : Type} {r : α → α → Prop}
    (h : WellFounded fun b a => r a b) (a : α) : ¬TransGen r a a := by
  intro hr
  induction a using h.induction with
  | _ a ih =>
    obtain ⟨b, hab, hba⟩ := TransGen.head'_iff.mp hr
    exact ih b hab (TransGen.tail' hba hab)

theorem not_circular (h : c.fault = none) : ¬c.Circular := by
  rintro (hr | hr | hr)
  · exact not_transGen_of_wellFounded (derivesFrom_wellFounded h) _ hr
  · exact not_transGen_of_wellFounded (restrictedFrom_wellFounded h) _ hr
  · exact not_transGen_of_wellFounded (brings_wellFounded h) _ hr

end Catalog

namespace SchemaSet

theorem ofDocuments_of_fault {documents : List LoadedDocument} {fault : Fault}
    (h : (Catalog.mk documents).fault = some fault) :
    ofDocuments documents = .error (.faulty fault) := by
  unfold ofDocuments
  split
  · next hf =>
    rw [h] at hf
    cases hf
    rfl
  · next hn =>
    rw [h] at hn
    cases hn

/-- In a schema set only finitely many types and attribute groups follow one after the other, and
the views are the recursions along them. Where one comes back to itself, wherever it is written, no
set is made: not of the documents, and not of a text that leads to them. -/
theorem views_wellFounded :
    (∀ s : SchemaSet, (WellFounded fun u t => s.DerivesFrom t u) ∧
      (WellFounded fun u t => s.RestrictedFrom t u) ∧ (WellFounded fun g' g => s.Brings g g') ∧
      s.ViewsUnfold) ∧
    ∀ documents : List LoadedDocument, (Catalog.mk documents).Circular → ∃ fault,
      ofDocuments documents = .error (.faulty fault) ∧
      ∀ (r : Resolver) (location : Option File.Path) (text : String),
        loadDocuments r location text = .ok documents →
        ofRoot r location text = .error (.faulty fault) := by
  refine ⟨fun s => ?_, fun documents hcircular => ?_⟩
  · have h := s.fault_eq_none
    exact ⟨Catalog.derivesFrom_wellFounded h, Catalog.restrictedFrom_wellFounded h,
      Catalog.brings_wellFounded h, Catalog.viewsUnfold h⟩
  · cases hf : (Catalog.mk documents).fault with
    | none => exact absurd hcircular (Catalog.not_circular hf)
    | some fault =>
      have herror := ofDocuments_of_fault hf
      refine ⟨fault, herror, fun r location text hload => ?_⟩
      rw [ofRoot, hload]
      exact herror

/-- Two simple types that are each restricted from the other, one of them through a type without a
name. -/
def alternating : List LoadedDocument :=
  [⟨none, { Document.empty none with
    simpleTypes := [.refinement (some ⟨none, "s"⟩) (.restriction none ⟨none, "u"⟩),
      .restriction (some ⟨none, "u"⟩) ⟨none, "s"⟩] }⟩]

theorem views_wellFounded_alternating : (Catalog.mk alternating).Circular ∧ ∃ fault,
    ofDocuments alternating = .error (.faulty fault) ∧
    ∀ (r : Resolver) (location : Option File.Path) (text : String),
      loadDocuments r location text = .ok alternating →
      ofRoot r location text = .error (.faulty fault) := by
  have hu : (Catalog.mk alternating).RestrictedFrom (.restriction none ⟨none, "u"⟩)
      (.restriction (some ⟨none, "u"⟩) ⟨none, "s"⟩) := .named (by decide) (by decide)
  have hs : (Catalog.mk alternating).RestrictedFrom (.restriction (some ⟨none, "u"⟩) ⟨none, "s"⟩)
      (.refinement (some ⟨none, "s"⟩) (.restriction none ⟨none, "u"⟩)) :=
    .named (by decide) (by decide)
  have hcircular : (Catalog.mk alternating).Circular :=
    .simpleType (((TransGen.single .inside).tail hu).tail hs)
  exact ⟨hcircular, views_wellFounded.2 alternating hcircular⟩

end SchemaSet

end SchemaShapes
