import SchemaShapes.Proofs.Catalog.Agreement
import SchemaShapes.Proofs.Catalog.Faults
import SchemaShapes.Proofs.SchemaSet.Inclusion

/-! Rearranged documents. Lookups find the first declaration of a name, so they do not notice when
the declarations of a document are permuted whose names are distinct, when a declaration is left out
whose name was declared before, or when documents are added that declare other names. Where lookups
find the same and nothing new is declared, there are no new faults. -/
namespace SchemaShapes

open Relation (ReflTransGen)
open Schema

/-! ### First declarations of names -/

section

variable {α : Type} {name : α → Option QName} {xs xs' ys ys' : List α}

/-- The first declaration of each name is the same. -/
def SameFirst (name : α → Option QName) (xs ys : List α) : Prop :=
  ∀ q, xs.find? (name · = some q) = ys.find? (name · = some q)

theorem SameFirst.append (h : SameFirst name xs ys) (h' : SameFirst name xs' ys') :
    SameFirst name (xs ++ xs') (ys ++ ys') := by
  intro q
  rw [List.find?_append, List.find?_append, h q, h' q]

/-- Among distinct names the order does not matter. -/
theorem sameFirst_of_perm (h : xs.Perm ys) (hd : (xs.filterMap name).Nodup) :
    SameFirst name xs ys := by
  intro q
  induction h with
  | nil => rfl
  | cons x _ ih =>
    rw [List.find?_cons, List.find?_cons, ih (hd.sublist (by cases h : name x <;> simp [h]))]
  | swap x y xs =>
    rw [List.find?_cons, List.find?_cons, List.find?_cons, List.find?_cons]
    by_cases hx : name x = some q
    · by_cases hy : name y = some q
      · simp [hx, hy] at hd
      · simp [hx, hy]
    · by_cases hy : name y = some q <;> simp [hx, hy]
  | trans hperm _ ih ih' => exact (ih hd).trans (ih' ((hperm.filterMap name).nodup_iff.mp hd))

/-- The second list is the first one without some declarations of names that were seen before. -/
inductive WithoutShadowed (name : α → Option QName) : List QName → List α → List α → Prop
  | nil {seen : List QName} : WithoutShadowed name seen [] []
  | keep {seen : List QName} {x : α} {xs ys : List α}
    (h : WithoutShadowed name ((name x).toList ++ seen) xs ys) :
    WithoutShadowed name seen (x :: xs) (x :: ys)
  | drop {seen : List QName} {x : α} {q : QName} {xs ys : List α} (hx : name x = some q)
    (hq : q ∈ seen) (h : WithoutShadowed name seen xs ys) : WithoutShadowed name seen (x :: xs) ys

theorem WithoutShadowed.sublist {seen : List QName} (h : WithoutShadowed name seen xs ys) :
    ys.Sublist xs := by
  induction h with
  | nil => exact .slnil
  | keep _ ih => exact ih.cons_cons _
  | drop _ _ _ ih => exact ih.cons _

theorem WithoutShadowed.find?_eq {seen : List QName} (h : WithoutShadowed name seen xs ys)
    {q : QName} (hq : q ∉ seen) : xs.find? (name · = some q) = ys.find? (name · = some q) := by
  induction h with
  | nil => rfl
  | @keep seen x xs ys _ ih =>
    rw [List.find?_cons, List.find?_cons]
    by_cases hx : name x = some q
    · simp [hx]
    · rw [ih (by simp [hx, hq])]
  | @drop seen x l xs ys hx hl _ ih =>
    have hne : l ≠ q := by
      rintro rfl
      exact hq hl
    rw [List.find?_cons, ih hq]
    simp [hx, hne]

end

/-! ### Documents, one kind after the other -/

/-- Something holds of the declarations of each kind. -/
structure Kindwise (P : ∀ {α : Type}, (Document → List α) → (α → Option QName) → Prop) : Prop where
  elements : P Document.elements (some ·.name)
  complexTypes : P Document.complexTypes ComplexType.name
  simpleTypes : P Document.simpleTypes SimpleType.name
  groups : P Document.groups (some ·.name)
  attributeGroups : P Document.attributeGroups (some ·.name)
  attributes : P Document.attributes (some ·.name)

theorem Kindwise.imp₂ {P Q S : ∀ {α : Type}, (Document → List α) → (α → Option QName) → Prop}
    (h : ∀ {α : Type} (declared : Document → List α) (name : α → Option QName),
      P declared name → Q declared name → S declared name)
    (hP : Kindwise P) (hQ : Kindwise Q) : Kindwise S where
  elements := h _ _ hP.elements hQ.elements
  complexTypes := h _ _ hP.complexTypes hQ.complexTypes
  simpleTypes := h _ _ hP.simpleTypes hQ.simpleTypes
  groups := h _ _ hP.groups hQ.groups
  attributeGroups := h _ _ hP.attributeGroups hQ.attributeGroups
  attributes := h _ _ hP.attributes hQ.attributes

theorem Kindwise.imp {P S : ∀ {α : Type}, (Document → List α) → (α → Option QName) → Prop}
    (h : ∀ {α : Type} (declared : Document → List α) (name : α → Option QName),
      P declared name → S declared name) (hP : Kindwise P) : Kindwise S :=
  Kindwise.imp₂ (fun declared name hP _ => h declared name hP) hP hP

variable {ds ds' ds'' : List LoadedDocument}

/-- The declarations of each document are permuted, and no two of one kind have one name. -/
def Permuted (ds ds' : List LoadedDocument) : Prop :=
  Kindwise fun declared name => List.Forall₂ (fun d d' =>
    (declared d.document).Perm (declared d'.document) ∧
      ((declared d.document).filterMap name).Nodup) ds ds'

/-- Declarations are left out whose names were declared before, in the document or an earlier
one. -/
def Pruned (ds ds' : List LoadedDocument) : Prop :=
  Kindwise fun declared name =>
    WithoutShadowed name [] (ds.flatMap (declared ·.document)) (ds'.flatMap (declared ·.document))

/-- Documents are permuted and pruned, time and again. -/
def Rearranged : List LoadedDocument → List LoadedDocument → Prop :=
  ReflTransGen fun ds ds' => Permuted ds ds' ∨ Pruned ds ds'

/-- The first declaration of each name is the same, and nothing new is declared. -/
def Preserved (ds ds' : List LoadedDocument) : Prop :=
  Kindwise fun declared name =>
    SameFirst name (ds.flatMap (declared ·.document)) (ds'.flatMap (declared ·.document)) ∧
      ds'.flatMap (declared ·.document) ⊆ ds.flatMap (declared ·.document)

theorem Permuted.preserved (h : Permuted ds ds') : Preserved ds ds' := by
  refine Kindwise.imp (fun declared name hperm => ?_) h
  clear h
  induction hperm with
  | nil => exact ⟨fun _ => rfl, fun _ h => h⟩
  | cons hd _ ih =>
    simp only [List.flatMap_cons]
    refine ⟨(sameFirst_of_perm hd.1 hd.2).append ih.1, fun a ha => ?_⟩
    rcases List.mem_append.mp ha with ha | ha
    · exact List.mem_append_left _ (hd.1.mem_iff.mpr ha)
    · exact List.mem_append_right _ (ih.2 ha)

theorem Pruned.preserved (h : Pruned ds ds') : Preserved ds ds' :=
  Kindwise.imp (fun _ _ h => ⟨fun _ => h.find?_eq List.not_mem_nil, h.sublist.subset⟩) h

theorem Preserved.refl (ds : List LoadedDocument) : Preserved ds ds where
  elements := ⟨fun _ => rfl, fun _ h => h⟩
  complexTypes := ⟨fun _ => rfl, fun _ h => h⟩
  simpleTypes := ⟨fun _ => rfl, fun _ h => h⟩
  groups := ⟨fun _ => rfl, fun _ h => h⟩
  attributeGroups := ⟨fun _ => rfl, fun _ h => h⟩
  attributes := ⟨fun _ => rfl, fun _ h => h⟩

theorem Preserved.trans (h : Preserved ds ds') (h' : Preserved ds' ds'') : Preserved ds ds'' :=
  Kindwise.imp₂ (fun _ _ h h' => ⟨fun q => (h.1 q).trans (h'.1 q), fun _ ha => h.2 (h'.2 ha)⟩) h h'

theorem Rearranged.preserved (h : Rearranged ds ds') : Preserved ds ds' := by
  induction h with
  | refl => exact .refl ds
  | tail _ hstep ih =>
    rcases hstep with hstep | hstep
    · exact ih.trans hstep.preserved
    · exact ih.trans hstep.preserved

/-! ### What is found -/

/-- The kinds of components that a reference is looked up among. -/
def ReferenceKind.sorts : ReferenceKind → List ComponentKind
  | .element => [.element]
  | .type => [.complexType, .simpleType]
  | .simpleType => [.simpleType]
  | .group => [.group]
  | .attributeGroup => [.attributeGroup]
  | .attribute => [.attribute]

namespace Catalog

variable {c c' : Catalog}

/-- Under a name both catalogs find equal components of a kind, or none. -/
def FindsAlike (c c' : Catalog) (q : QName) : ComponentKind → Prop
  | .element => (c.findElement q).map (·.value) = (c'.findElement q).map (·.value)
  | .complexType => (c.findComplexType q).map (·.value) = (c'.findComplexType q).map (·.value)
  | .simpleType => c.findSimpleType q = c'.findSimpleType q
  | .group => (c.findGroup q).map (·.value) = (c'.findGroup q).map (·.value)
  | .attributeGroup => c.findAttributeGroup q = c'.findAttributeGroup q
  | .attribute => c.findAttribute q = c'.findAttribute q

/-- A reference means the same where it is found alike. -/
theorem meaning_eq_of_findsAlike {r : Reference}
    (h : ∀ kind ∈ r.kind.sorts, FindsAlike c c' r.name kind) : c.meaning r = c'.meaning r := by
  obtain ⟨kind, q⟩ := r
  have hmap : ∀ {α : Type} {o o' : Option (Located α)} (f : α → Component),
      o.map (·.value) = o'.map (·.value) → o.map (f ·.value) = o'.map (f ·.value) := by
    intro α o o' f ho
    rw [← Function.comp_def f, ← Option.map_map, ho, Option.map_map, Function.comp_def]
  cases kind with
  | element => exact hmap _ (h .element (by simp [ReferenceKind.sorts]))
  | type =>
    have hcomplex := hmap .complexType (h .complexType (by simp [ReferenceKind.sorts]))
    have hsimple : c.findSimpleType q = c'.findSimpleType q :=
      h .simpleType (by simp [ReferenceKind.sorts])
    simp only [meaning, hcomplex, hsimple]
  | simpleType =>
    have hsimple : c.findSimpleType q = c'.findSimpleType q :=
      h .simpleType (by simp [ReferenceKind.sorts])
    simp only [meaning, hsimple]
  | group => exact hmap _ (h .group (by simp [ReferenceKind.sorts]))
  | attributeGroup =>
    exact congrArg (Option.map _) (h .attributeGroup (by simp [ReferenceKind.sorts]))
  | «attribute» => exact congrArg (Option.map _) (h .attribute (by simp [ReferenceKind.sorts]))

theorem findsAlike_of_preserved (h : Preserved c.documents c'.documents) (q : QName) :
    ∀ kind, FindsAlike c c' q kind
  | .element => map_value_located.trans ((h.elements.1 q).trans map_value_located.symm)
  | .complexType => map_value_located.trans ((h.complexTypes.1 q).trans map_value_located.symm)
  | .simpleType => map_value_lookup.trans ((h.simpleTypes.1 q).trans map_value_lookup.symm)
  | .group => map_value_located.trans ((h.groups.1 q).trans map_value_located.symm)
  | .attributeGroup =>
    map_value_lookup.trans ((h.attributeGroups.1 q).trans map_value_lookup.symm)
  | .attribute => map_value_lookup.trans ((h.attributes.1 q).trans map_value_lookup.symm)

/-! ### No new faults -/

section

variable (h : ∀ q kind, FindsAlike c c' q kind)

include h

theorem complexBase_eq : c.complexBase = c'.complexBase := by
  funext q
  have hfind : (c.findComplexType q).map (·.value) = (c'.findComplexType q).map (·.value) :=
    h q .complexType
  have hbind : ∀ o : Option (Located ComplexType),
      o.bind (·.value.base) = (o.map (·.value)).bind (·.base) := by
    intro o
    cases o <;> rfl
  rw [complexBase, complexBase, hbind, hbind, hfind]

theorem simpleBase_eq : c.simpleBase = c'.simpleBase := by
  funext q
  have hfind : c.findSimpleType q = c'.findSimpleType q := h q .simpleType
  rw [simpleBase, simpleBase, hfind]

theorem ComplexBases.of_findsAlike {t : ComplexType} {qs : List QName}
    (ht : c'.ComplexBases t qs) : c.ComplexBases t qs := by
  cases qs with
  | nil => exact .here
  | cons q qs => rwa [complexBases_chain_iff, complexBase_eq h, ← complexBases_chain_iff]

theorem SimpleBases.of_findsAlike {t : SimpleType} {qs : List QName}
    (ht : c'.SimpleBases t qs) : c.SimpleBases t qs := by
  cases qs with
  | nil => exact .here
  | cons q qs => rwa [simpleBases_chain_iff, simpleBase_eq h, ← simpleBases_chain_iff]

theorem LeadsTo.of_findsAlike {g : AttributeGroup} {q : QName} (hg : c'.LeadsTo g q) :
    c.LeadsTo g q := by
  induction hg with
  | refers hq => exact .refers hq
  | @through g g' q r hq hg _ ih =>
    have hfind : c.findAttributeGroup q = c'.findAttributeGroup q := h q .attributeGroup
    exact .through hq (hfind.trans hg) ih

theorem defines_eq_of_findsAlike (r : Reference) : c.defines r = c'.defines r := by
  obtain ⟨kind, q⟩ := r
  have hsome : ∀ {α : Type} {o o' : Option (Located α)}, o.map (·.value) = o'.map (·.value) →
      o.isSome = o'.isSome := by
    intro α o o' ho
    rw [← Option.isSome_map (f := (·.value)), ho, Option.isSome_map]
  have hsimple : c.findSimpleType q = c'.findSimpleType q := h q .simpleType
  have hcomplex := hsome (h q .complexType)
  cases kind with
  | element => exact hsome (h q .element)
  | type => simp only [defines, definesSimpleType, hsimple, hcomplex]
  | simpleType => simp only [defines, definesSimpleType, hsimple]
  | group => exact hsome (h q .group)
  | attributeGroup => exact congrArg Option.isSome (h q .attributeGroup)
  | «attribute» => exact congrArg Option.isSome (h q .attribute)

end

theorem Holds.of_preserved (h : Preserved c.documents c'.documents) {x : Component}
    (hx : c'.Holds x) : c.Holds x := by
  induction hx with
  | anyType => exact .anyType
  | element he => exact .element (h.elements.2 he)
  | complexType ht => exact .complexType (h.complexTypes.2 ht)
  | simpleType ht => exact .simpleType (h.simpleTypes.2 ht)
  | group hd => exact .group (h.groups.2 hd)
  | attributeGroup hg => exact .attributeGroup (h.attributeGroups.2 hg)
  | declaredAttribute ha => exact .declaredAttribute (h.attributes.2 ha)
  | part _ hp ih => exact .part ih hp

theorem fault_eq_none_of_preserved (h : Preserved c.documents c'.documents) (hf : c.fault = none) :
    c'.fault = none := by
  have hfind := findsAlike_of_preserved h
  obtain ⟨hdefined, ⟨hcomplex, hsimple⟩, hgroups⟩ := fault_eq_none_iff.mp hf
  refine fault_eq_none_iff.mpr ⟨fun x hx r hr => ?_, ⟨fun t ht qs hqs => ?_, fun t ht qs hqs => ?_⟩,
    fun g hg hleads => ?_⟩
  · rw [← defines_iff, ← defines_eq_of_findsAlike hfind, defines_iff]
    exact hdefined x (hx.of_preserved h) r hr
  · exact hcomplex t (h.complexTypes.2 ht) qs (.of_findsAlike hfind hqs)
  · exact hsimple t (h.simpleTypes.2 ht) qs (.of_findsAlike hfind hqs)
  · exact hgroups g (h.attributeGroups.2 hg) (.of_findsAlike hfind hleads)

end Catalog

/-! ### Added documents -/

/-- Names of the two kinds of components are told apart from each other, not only among their own
kind. -/
def Schema.ComponentKind.SharesNames (kind kind' : ComponentKind) : Prop :=
  kind = kind' ∨ kind ∈ [.complexType, .simpleType] ∧ kind' ∈ [.complexType, .simpleType]

/-- A document declares only names that are not found. -/
def Catalog.NewTo (c : Catalog) (d : Document) : Prop :=
  ∀ kind kind', ComponentKind.SharesNames kind kind' → ∀ q ∈ d.names kind, c.finds kind' q = false

/-- Documents are put in between, anywhere. What the others link to may change, since added
documents have to be linked to, but not what they declare. -/
inductive Extended (new : Document → Prop) : List LoadedDocument → List LoadedDocument → Prop
  | nil : Extended new [] []
  | keep {d d' : LoadedDocument} {ds ds' : List LoadedDocument}
    (hd : d'.document = { d.document with links := d'.document.links })
    (h : Extended new ds ds') : Extended new (d :: ds) (d' :: ds')
  | add {d' : LoadedDocument} {ds ds' : List LoadedDocument} (hd : new d'.document)
    (h : Extended new ds ds') : Extended new ds (d' :: ds')

theorem Extended.find?_eq {new : Document → Prop} {ds ds' : List LoadedDocument}
    (h : Extended new ds ds') {α : Type} (declared : Document → List α) {P : α → Prop}
    [DecidablePred P] (hlinks : ∀ d links, declared { d with links := links } = declared d)
    (hnew : ∀ d, new d → ∀ a ∈ declared d, ¬P a) :
    (ds.flatMap (declared ·.document)).find? (P ·) =
      (ds'.flatMap (declared ·.document)).find? (P ·) := by
  induction h with
  | nil => rfl
  | @keep d d' _ _ hd _ ih =>
    have heq : declared d'.document = declared d.document := by
      rw [hd]
      exact hlinks _ _
    rw [List.flatMap_cons, List.flatMap_cons, List.find?_append, List.find?_append, ih, heq]
  | @add d' _ _ hd _ ih =>
    have hnone : (declared d'.document).find? (P ·) = none := by
      simpa using hnew _ hd
    rw [List.flatMap_cons, List.find?_append, ← ih, hnone, Option.none_or]

namespace Catalog

variable {c c' : Catalog}

/-- Added documents do not get in the way of a name that they do not declare. -/
theorem findsAlike_of_extended {new : Document → Prop} (h : Extended new c.documents c'.documents)
    {q : QName} {kind : ComponentKind} (hnew : ∀ d, new d → q ∉ d.names kind) :
    FindsAlike c c' q kind := by
  cases kind with
  | element =>
    refine map_value_located.trans (Eq.trans ?_ map_value_located.symm)
    exact h.find?_eq Document.elements (fun _ _ => rfl) fun d hd e he hname =>
      hnew d hd (List.mem_map.mpr ⟨e, he, Option.some.inj hname⟩)
  | complexType =>
    refine map_value_located.trans (Eq.trans ?_ map_value_located.symm)
    exact h.find?_eq Document.complexTypes (fun _ _ => rfl) fun d hd t ht hname =>
      hnew d hd (List.mem_filterMap.mpr ⟨t, ht, hname⟩)
  | simpleType =>
    refine map_value_lookup.trans (Eq.trans ?_ map_value_lookup.symm)
    exact h.find?_eq Document.simpleTypes (fun _ _ => rfl) fun d hd t ht hname =>
      hnew d hd (List.mem_filterMap.mpr ⟨t, ht, hname⟩)
  | group =>
    refine map_value_located.trans (Eq.trans ?_ map_value_located.symm)
    exact h.find?_eq Document.groups (fun _ _ => rfl) fun d hd g hg hname =>
      hnew d hd (List.mem_map.mpr ⟨g, hg, Option.some.inj hname⟩)
  | attributeGroup =>
    refine map_value_lookup.trans (Eq.trans ?_ map_value_lookup.symm)
    exact h.find?_eq Document.attributeGroups (fun _ _ => rfl) fun d hd g hg hname =>
      hnew d hd (List.mem_map.mpr ⟨g, hg, Option.some.inj hname⟩)
  | «attribute» =>
    refine map_value_lookup.trans (Eq.trans ?_ map_value_lookup.symm)
    exact h.find?_eq Document.attributes (fun _ _ => rfl) fun d hd a ha hname =>
      hnew d hd (List.mem_map.mpr ⟨a, ha, Option.some.inj hname⟩)

/-- A reference that is defined means the same after documents are added. -/
theorem meaning_eq_of_extended (h : Extended c.NewTo c.documents c'.documents) {r : Reference}
    (hr : c.defines r) : c.meaning r = c'.meaning r := by
  obtain ⟨kind, q⟩ := r
  have hsorts : ∀ kind : ReferenceKind, (∃ k ∈ kind.sorts, c.finds k q) →
      c.meaning ⟨kind, q⟩ = c'.meaning ⟨kind, q⟩ := by
    rintro kind ⟨k, hk, hfinds⟩
    refine meaning_eq_of_findsAlike fun k' hk' => findsAlike_of_extended h fun d hd hmem => ?_
    have hshares : k'.SharesNames k := by
      cases kind <;> simp_all [ReferenceKind.sorts, ComponentKind.SharesNames]
    have hnot := hd k' k hshares q hmem
    rw [hfinds] at hnot
    cases hnot
  cases kind with
  | type =>
    by_cases hbuiltin : q = anyTypeName ∨ (TypeCode.builtin? q).isSome
    · rw [meaning, meaning, if_pos hbuiltin, if_pos hbuiltin]
    · refine hsorts .type ?_
      simp only [not_or] at hbuiltin
      simp only [defines, definesSimpleType, hbuiltin, decide_false, Bool.false_or,
        Bool.or_eq_true] at hr
      rcases hr with hr | hr
      · exact ⟨.simpleType, by simp [ReferenceKind.sorts], hr⟩
      · exact ⟨.complexType, by simp [ReferenceKind.sorts], hr⟩
  | simpleType =>
    by_cases hbuiltin : (TypeCode.builtin? q).isSome
    · rw [meaning, meaning, if_pos hbuiltin, if_pos hbuiltin]
    · refine hsorts .simpleType ⟨.simpleType, by simp [ReferenceKind.sorts], ?_⟩
      simp only [defines, definesSimpleType, hbuiltin, Bool.false_or] at hr
      exact hr
  | element => exact hsorts .element ⟨.element, by simp [ReferenceKind.sorts], hr⟩
  | group => exact hsorts .group ⟨.group, by simp [ReferenceKind.sorts], hr⟩
  | attributeGroup =>
    exact hsorts .attributeGroup ⟨.attributeGroup, by simp [ReferenceKind.sorts], hr⟩
  | «attribute» => exact hsorts .attribute ⟨.attribute, by simp [ReferenceKind.sorts], hr⟩

theorem holds_of_meaning {r : Reference} {x : Component} (h : c.meaning r = some x) :
    c.Holds x := by
  obtain ⟨kind, q⟩ := r
  cases kind with
  | element =>
    obtain ⟨e, he, rfl⟩ := Option.map_eq_some_iff.mp h
    exact holds_of_topLevel (topLevel_of_findElement he)
  | type =>
    rw [meaning] at h
    dsimp only at h
    split_ifs at h
    rcases Option.or_eq_some_iff.mp h with h | ⟨-, h⟩
    · obtain ⟨t, ht, rfl⟩ := Option.map_eq_some_iff.mp h
      exact holds_of_topLevel (topLevel_of_findComplexType ht)
    · obtain ⟨t, ht, rfl⟩ := Option.map_eq_some_iff.mp h
      exact .simpleType (findSimpleType_eq_some ht).1
  | simpleType =>
    rw [meaning] at h
    dsimp only at h
    split_ifs at h
    obtain ⟨t, ht, rfl⟩ := Option.map_eq_some_iff.mp h
    exact .simpleType (findSimpleType_eq_some ht).1
  | group =>
    obtain ⟨d, hd, rfl⟩ := Option.map_eq_some_iff.mp h
    exact holds_of_topLevel (topLevel_of_findGroup hd)
  | attributeGroup =>
    obtain ⟨g, hg, rfl⟩ := Option.map_eq_some_iff.mp h
    exact .attributeGroup (findAttributeGroup_eq_some hg).1
  | «attribute» =>
    obtain ⟨a, ha, rfl⟩ := Option.map_eq_some_iff.mp h
    exact .declaredAttribute (findAttribute_eq_some ha).1

theorem defines_element {q : QName} : c.defines ⟨.element, q⟩ = c.finds .element q := rfl

theorem defines_of_findElement {q : QName} {e : Located Element} (he : c.findElement q = some e) :
    c.defines ⟨.element, q⟩ := by
  rw [defines_element, finds, he]
  rfl

/-- Without faults whatever is in reach of a defined name is defined. -/
theorem defines_of_reach (hf : c.fault = none) {r₀ r : Reference} (h₀ : c.defines r₀)
    (h : ReflTransGen c.RefersTo r₀ r) : c.defines r := by
  cases h with
  | refl => exact h₀
  | tail _ hr =>
    obtain ⟨x, hx, hr⟩ := hr
    exact defines_of_fault_eq_none hf ((holds_of_meaning hx).references_subset hr)

end Catalog

end SchemaShapes
