import SchemaShapes.Proofs.Catalog.Derivation
import SchemaShapes.Proofs.Catalog.References
import SchemaShapes.Proofs.Catalog.Views

/-! Faults are exact. Documents make a schema set exactly if every name that they use is defined in
them, no name is met twice when bases are followed from a type, and no attribute group leads back to
its own name; and names without a definition are blamed before anything else. -/
namespace SchemaShapes

open SchemaShapes.Graph
open Relation (ReflTransGen)
open Schema

namespace Catalog

variable {c : Catalog}

/-! ### Bases -/

/-- The names that are met, in order, when the bases of a complex type are followed for some steps.
A name leads on if the documents declare a complex type of that name. -/
inductive ComplexBases (c : Catalog) : ComplexType → List QName → Prop
  | here {t : ComplexType} : ComplexBases c t []
  | base {t : ComplexType} {q : QName} (hq : t.base = some q) : ComplexBases c t [q]
  | onward {t : ComplexType} {u : Located ComplexType} {q : QName} {qs : List QName}
    (hq : t.base = some q) (hu : c.findComplexType q = some u) (h : ComplexBases c u.value qs) :
    ComplexBases c t (q :: qs)

/-- The same for simple types. Types without a name in between are stepped through. -/
inductive SimpleBases (c : Catalog) : SimpleType → List QName → Prop
  | here {t : SimpleType} : SimpleBases c t []
  | base {name : Option QName} {q : QName} : SimpleBases c (.restriction name q) [q]
  | onward {name : Option QName} {q : QName} {u : SimpleType} {qs : List QName}
    (hu : c.findSimpleType q = some u) (h : SimpleBases c u qs) :
    SimpleBases c (.restriction name q) (q :: qs)
  | inside {name : Option QName} {t : SimpleType} {qs : List QName} (h : SimpleBases c t qs) :
    SimpleBases c (.refinement name t) qs

/-- Following bases from a declared type never meets a name twice, that of the type included. -/
def NoNameMetTwice (c : Catalog) : Prop :=
  (∀ t ∈ c.complexTypes, ∀ qs, c.ComplexBases t qs → (t.name.toList ++ qs).Nodup) ∧
    ∀ t ∈ c.simpleTypes, ∀ qs, c.SimpleBases t qs → (t.name.toList ++ qs).Nodup

theorem follows_complexBase_iff {q l : QName} : Follows c.complexBase q l ↔
    ∃ u, c.findComplexType q = some u ∧ u.value.base = some l :=
  Option.bind_eq_some_iff

theorem follows_simpleBase_iff {q l : QName} : Follows c.simpleBase q l ↔
    ∃ u, c.findSimpleType q = some u ∧ u.base = some l :=
  Option.bind_eq_some_iff

/-- Following bases is a chain in which each name means a type with the next one as its base. -/
theorem complexBases_chain_iff {t : ComplexType} {q : QName} {qs : List QName} :
    c.ComplexBases t (q :: qs) ↔ t.base = some q ∧ (q :: qs).IsChain (Follows c.complexBase) := by
  induction qs generalizing t q with
  | nil =>
    refine ⟨fun h => ?_, fun h => .base h.1⟩
    cases h with
    | base hq => exact ⟨hq, List.isChain_singleton q⟩
    | onward hq _ _ => exact ⟨hq, List.isChain_singleton q⟩
  | cons l qs ih =>
    rw [List.isChain_cons_cons, follows_complexBase_iff]
    constructor
    · intro h
      cases h with
      | onward hq hu h => exact ⟨hq, ⟨_, hu, (ih.mp h).1⟩, (ih.mp h).2⟩
    · rintro ⟨hq, ⟨u, hu, hl⟩, hchain⟩
      exact .onward hq hu (ih.mpr ⟨hl, hchain⟩)

/-- Types without a name are stepped through until there is a base to follow. -/
theorem simpleBases_cons_iff {t : SimpleType} {q : QName} {qs : List QName} :
    c.SimpleBases t (q :: qs) ↔
      t.base = some q ∧ (qs = [] ∨ ∃ u, c.findSimpleType q = some u ∧ c.SimpleBases u qs) := by
  induction t with
  | restriction name base =>
    constructor
    · intro h
      cases h with
      | base => exact ⟨rfl, .inl rfl⟩
      | onward hu h => exact ⟨rfl, .inr ⟨_, hu, h⟩⟩
    · rintro ⟨hq, h⟩
      cases hq
      rcases h with rfl | ⟨u, hu, h⟩
      · exact .base
      · exact .onward hu h
  | refinement name t ih =>
    rw [SimpleType.base, ← ih]
    constructor
    · intro h
      cases h with
      | inside h => exact h
    · exact .inside
  | list name =>
    constructor
    · intro h
      cases h
    · rintro ⟨hq, -⟩
      cases hq
  | union name =>
    constructor
    · intro h
      cases h
    · rintro ⟨hq, -⟩
      cases hq

theorem simpleBases_chain_iff {t : SimpleType} {q : QName} {qs : List QName} :
    c.SimpleBases t (q :: qs) ↔ t.base = some q ∧ (q :: qs).IsChain (Follows c.simpleBase) := by
  induction qs generalizing t q with
  | nil => simp [simpleBases_cons_iff]
  | cons l qs ih =>
    rw [simpleBases_cons_iff, List.isChain_cons_cons, follows_simpleBase_iff]
    refine and_congr_right fun _ => ⟨?_, ?_⟩
    · rintro (h | ⟨u, hu, h⟩)
      · cases h
      · exact ⟨⟨u, hu, (ih.mp h).1⟩, (ih.mp h).2⟩
    · rintro ⟨⟨u, hu, hl⟩, hchain⟩
      exact .inr ⟨u, hu, ih.mpr ⟨hl, hchain⟩⟩

/-- A type is at fault exactly if its name is met again, or another name is met twice, along its
bases. -/
theorem derivationFault_eq_none_iff {next : QName → Option QName} {domain : List QName}
    (hd : ∀ k l, next k = some l → k ∈ domain) {start base : QName} :
    derivationFault next domain (some start) (some base) = none ↔
      ∀ qs, (base :: qs).IsChain (Follows next) → (start :: base :: qs).Nodup := by
  have hwalk : derivationFault next domain (some start) (some base) = none ↔
      (walk next domain [start] base).returns = false := by
    simp [derivationFault]
  have hnew : ∀ ls : List QName, (∀ l ∈ ls, l ∉ [start]) ↔ start ∉ ls := by
    intro ls
    refine ⟨fun h hmem => h start hmem (by simp), fun h l hl hls => h ?_⟩
    rwa [← List.mem_singleton.mp hls]
  rw [hwalk, walk_ends_iff hd]
  refine forall₂_congr fun qs _ => ?_
  rw [hnew, and_comm, ← List.nodup_cons]

/-- A type is not at fault if no name is met twice; one without a name or a base never is. -/
theorem derivationFault_of_nodup {next : QName → Option QName} {domain : List QName}
    (hd : ∀ k l, next k = some l → k ∈ domain) {name base : Option QName}
    (h : ∀ q qs, base = some q → (q :: qs).IsChain (Follows next) →
      (name.toList ++ q :: qs).Nodup) :
    derivationFault next domain name base = none := by
  cases name with
  | none => rfl
  | some start =>
    cases base with
    | none => rfl
    | some q => exact (derivationFault_eq_none_iff hd).mpr fun qs hqs => h q qs rfl hqs

/-- Types without a name are covered by the walks from the names that their bases lead to. -/
theorem nodup_of_derivationFault {next : QName → Option QName} {domain : List QName}
    (hd : ∀ k l, next k = some l → k ∈ domain) {name base : Option QName}
    (h : derivationFault next domain name base = none)
    (hends : ∀ q, (walk next domain [] q).returns = false) {q : QName} {qs : List QName}
    (hq : base = some q) (hqs : (q :: qs).IsChain (Follows next)) :
    (name.toList ++ q :: qs).Nodup := by
  subst hq
  cases name with
  | none => exact ((walk_ends_iff hd).mp (hends q) qs hqs).1
  | some start => exact (derivationFault_eq_none_iff hd).mp h qs hqs

theorem mem_names_of_complexBase {k l : QName} (h : c.complexBase k = some l) :
    k ∈ c.complexTypeNames := by
  obtain ⟨u, hu, -⟩ := Option.bind_eq_some_iff.mp h
  exact mem_complexTypeNames hu

theorem noNameMetTwice_of_fault_eq_none (h : c.fault = none) : c.NoNameMetTwice := by
  refine ⟨fun t ht qs hqs => ?_, fun t ht qs hqs => ?_⟩
  · cases qs with
    | nil => cases t.name <;> simp
    | cons q qs =>
      obtain ⟨hq, hchain⟩ := complexBases_chain_iff.mp hqs
      exact nodup_of_derivationFault (fun _ _ => mem_names_of_complexBase)
        (complexTypeFault_eq_none h ht) (walk_complexBase_ends h) hq hchain
  · cases qs with
    | nil => cases t.name <;> simp
    | cons q qs =>
      obtain ⟨hq, hchain⟩ := simpleBases_chain_iff.mp hqs
      exact nodup_of_derivationFault (fun _ _ => mem_names_of_simpleBase)
        (simpleTypeFault_eq_none h ht) (walk_simpleBase_ends h) hq hchain

theorem complexTypeFault_of_noNameMetTwice (h : c.NoNameMetTwice) {t : ComplexType}
    (ht : t ∈ c.complexTypes) : c.complexTypeFault t = none :=
  derivationFault_of_nodup (fun _ _ => mem_names_of_complexBase) fun q qs hq hchain =>
    h.1 t ht (q :: qs) (complexBases_chain_iff.mpr ⟨hq, hchain⟩)

theorem simpleTypeFault_of_noNameMetTwice (h : c.NoNameMetTwice) {t : SimpleType}
    (ht : t ∈ c.simpleTypes) : c.simpleTypeFault t = none :=
  derivationFault_of_nodup (fun _ _ => mem_names_of_simpleBase) fun q qs hq hchain =>
    h.2 t ht (q :: qs) (simpleBases_chain_iff.mpr ⟨hq, hchain⟩)

/-! ### Attribute groups -/

/-- References lead from an attribute group to a name, through the groups that names mean. -/
inductive LeadsTo (c : Catalog) : AttributeGroup → QName → Prop
  | refers {g : AttributeGroup} {q : QName} (hq : .group q ∈ g.items) : LeadsTo c g q
  | through {g g' : AttributeGroup} {q r : QName} (hq : .group q ∈ g.items)
    (hg : c.findAttributeGroup q = some g') (h : LeadsTo c g' r) : LeadsTo c g r

/-- No attribute group leads back to its own name. -/
def NoGroupInItself (c : Catalog) : Prop := ∀ g ∈ c.attributeGroups, ¬c.LeadsTo g g.name

theorem leadsTo_of_path {p q : QName} (h : ReflTransGen c.GroupStep p q) {g : AttributeGroup}
    (hp : .group p ∈ g.items) : c.LeadsTo g q := by
  induction h using ReflTransGen.head_induction_on generalizing g with
  | refl => exact .refers hp
  | @head p l hpl _ ih =>
    -- A name that leads on is the name of a group, since others have nothing inside.
    cases hg : c.findAttributeGroup p with
    | none => simp [GroupStep, Step, groupsInside, hg] at hpl
    | some g' =>
      have hl := hpl.1
      rw [groupsInside_eq hg] at hl
      exact .through hp hg (ih (mem_groupNames_iff.mp hl))

theorem path_of_leadsTo {g : AttributeGroup} {r : QName} (h : c.LeadsTo g r)
    (hr : r ∈ c.attributeGroups.map (·.name)) : ∃ p, .group p ∈ g.items ∧
      p ∈ c.attributeGroups.map (·.name) ∧ ReflTransGen c.GroupStep p r := by
  induction h with
  | refers hq => exact ⟨_, hq, hr, .refl⟩
  | @through g g' q r hq hg _ ih =>
    obtain ⟨p, hp, hpn, hpath⟩ := ih hr
    refine ⟨q, hq, mem_names_of_findAttributeGroup hg, .head ⟨?_, hpn⟩ hpath⟩
    rw [groupsInside_eq hg]
    exact mem_groupNames_iff.mpr hp

/-- An attribute group is at fault exactly if it leads back to its own name. -/
theorem attributeGroupFault_eq_none_iff {g : AttributeGroup} (hg : g ∈ c.attributeGroups) :
    c.attributeGroupFault g = none ↔ ¬c.LeadsTo g g.name := by
  have hreach : g.name ∈ reached id c.groupsInside (c.attributeGroups.map (·.name))
      (groupNames g.items) ↔ c.LeadsTo g g.name := by
    refine Iff.trans (mem_reached_iff (S := fun _ => True) (fun _ _ _ _ => trivial)
      (fun _ _ _ _ h => h) (fun _ _ => trivial)) ?_
    constructor
    · rintro ⟨p, hp, -, hpath⟩
      exact leadsTo_of_path hpath (mem_groupNames_iff.mp hp)
    · intro h
      obtain ⟨p, hp, hpn, hpath⟩ := path_of_leadsTo h (List.mem_map_of_mem hg)
      exact ⟨p, mem_groupNames_iff.mpr hp, hpn, hpath⟩
  rw [attributeGroupFault, ← not_congr hreach]
  by_cases hmem : g.name ∈ reached id c.groupsInside (c.attributeGroups.map (·.name))
    (groupNames g.items) <;> simp [hmem]

/-! ### The check as a whole -/

/-- Every name that is used at any depth of the documents is defined. -/
def AllDefined (c : Catalog) : Prop := ∀ x, c.Holds x → ∀ r, x.Uses r → c.Defined r

theorem allDefined_iff : c.AllDefined ↔ c.references.find? (!c.defines ·) = none := by
  rw [List.find?_eq_none]
  constructor
  · intro h r hr
    obtain ⟨x, hx, hxr⟩ := mem_references_iff.mp hr
    simpa using defines_iff.mpr (h x hx r hxr)
  · intro h x hx r hxr
    exact defines_iff.mp (by simpa using h r (mem_references_iff.mpr ⟨x, hx, hxr⟩))

/-- A name without a definition is blamed, whatever else is wrong. -/
theorem fault_of_not_allDefined (h : ¬c.AllDefined) :
    ∃ r, c.fault = some (.unresolved r) ∧ ¬c.Defined r ∧ ∃ x, c.Holds x ∧ x.Uses r := by
  obtain ⟨r, hr⟩ := Option.ne_none_iff_exists'.mp (mt allDefined_iff.mpr h)
  refine ⟨r, by rw [fault, hr]; rfl, ?_, mem_references_iff.mp (List.mem_of_find?_eq_some hr)⟩
  rw [← defines_iff]
  simpa using List.find?_some hr

theorem circularityIn_of_none {d : LoadedDocument} (hd : d ∈ c.documents)
    (ht : c.NoNameMetTwice) (hg : c.NoGroupInItself) :
    c.circularityIn d.document = none := by
  refine Option.or_eq_none_iff.mpr ⟨?_, Option.or_eq_none_iff.mpr ⟨?_, ?_⟩⟩ <;>
    refine List.findSome?_eq_none_iff.mpr fun x hx => ?_
  · exact complexTypeFault_of_noNameMetTwice ht (List.mem_flatMap.mpr ⟨d, hd, hx⟩)
  · exact simpleTypeFault_of_noNameMetTwice ht (List.mem_flatMap.mpr ⟨d, hd, hx⟩)
  · have hmem : x ∈ c.attributeGroups := List.mem_flatMap.mpr ⟨d, hd, hx⟩
    exact (attributeGroupFault_eq_none_iff hmem).mpr (hg x hmem)

theorem fault_eq_none_iff :
    c.fault = none ↔ c.AllDefined ∧ c.NoNameMetTwice ∧ c.NoGroupInItself := by
  constructor
  · intro h
    refine ⟨?_, noNameMetTwice_of_fault_eq_none h, fun g hg => ?_⟩
    · exact allDefined_iff.mpr (Option.map_eq_none_iff.mp (Option.or_eq_none_iff.mp h).1)
    · exact (attributeGroupFault_eq_none_iff hg).mp (attributeGroupFault_eq_none h hg)
  · rintro ⟨hdefined, ht, hg⟩
    refine Option.or_eq_none_iff.mpr ⟨Option.map_eq_none_iff.mpr (allDefined_iff.mp hdefined), ?_⟩
    exact List.findSome?_eq_none_iff.mpr fun d hd => circularityIn_of_none hd ht hg

/-- Faults are those of the documents, wherever these stand. -/
theorem fault_congr {c c' : Catalog}
    (h : c.documents.map (·.document) = c'.documents.map (·.document)) : c.fault = c'.fault := by
  have hflat : ∀ {α : Type} (f : Document → List α),
      c.documents.flatMap (f ·.document) = c'.documents.flatMap (f ·.document) := by
    intro α f
    rw [← List.flatMap_map LoadedDocument.document f, h, List.flatMap_map]
  have hcomplexTypes : c.complexTypes = c'.complexTypes := hflat _
  have hsimpleTypes : c.simpleTypes = c'.simpleTypes := hflat _
  have hattributeGroups : c.attributeGroups = c'.attributeGroups := hflat _
  have hreferences : c.references = c'.references := hflat _
  have hdefines : c.defines = c'.defines := by
    have helements : c.elements = c'.elements := hflat _
    have hgroups : c.groups = c'.groups := hflat _
    have hattributes : c.attributes = c'.attributes := hflat _
    funext r
    simp only [defines, definesSimpleType, findElement_eq_firstNamed, findSimpleType_eq_find?,
      findComplexType_eq_firstNamed, findGroup_eq_firstNamed, findAttributeGroup_eq_find?,
      findAttribute_eq_find?, helements, hcomplexTypes, hsimpleTypes, hgroups, hattributeGroups,
      hattributes]
  have hcomplex : c.complexTypeFault = c'.complexTypeFault := by
    have hbase : c.complexBase = c'.complexBase := by
      funext q
      simp only [complexBase, findComplexType_eq_firstNamed, hcomplexTypes]
    funext t
    simp only [complexTypeFault, complexTypeNames, hbase, hcomplexTypes]
  have hsimple : c.simpleTypeFault = c'.simpleTypeFault := by
    have hbase : c.simpleBase = c'.simpleBase := by
      funext q
      simp only [simpleBase, findSimpleType_eq_find?, hsimpleTypes]
    funext t
    simp only [simpleTypeFault, simpleTypeNames, hbase, hsimpleTypes]
  have hgroup : c.attributeGroupFault = c'.attributeGroupFault := by
    have hinside : c.groupsInside = c'.groupsInside := by
      funext q
      simp only [groupsInside, findAttributeGroup_eq_find?, hattributeGroups]
    funext g
    simp only [attributeGroupFault, hinside, hattributeGroups]
  have hcircular : c.circularityIn = c'.circularityIn := by
    funext d
    rw [circularityIn, circularityIn, hcomplex, hsimple, hgroup]
  have hdocuments : c.documents.findSome? (c.circularityIn ·.document) =
      c'.documents.findSome? (c'.circularityIn ·.document) := by
    have hmap := congrArg (List.findSome? c.circularityIn) h
    rw [List.findSome?_map, List.findSome?_map] at hmap
    rw [← hcircular]
    exact hmap
  rw [fault, fault, hreferences, hdefines, hdocuments]

end Catalog

namespace SchemaSet

theorem ofDocuments_ok_iff {documents : List LoadedDocument} :
    (∃ s, ofDocuments documents = .ok s ∧ s.toCatalog = ⟨documents⟩) ↔
      (Catalog.mk documents).fault = none := by
  unfold ofDocuments
  split
  · next h => simp [h]
  · next h => simp [h]

/-- Documents make a set exactly if every name that is used in them, at any depth, is defined, no
name is met twice along the bases of a type, and no attribute group leads back to itself. If a name
is not defined, such a name is the error, whatever holds of types and groups. -/
theorem documents_accepted_iff (documents : List LoadedDocument) :
    ((∃ s, ofDocuments documents = .ok s ∧ s.toCatalog = ⟨documents⟩) ↔
      (Catalog.mk documents).AllDefined ∧ (Catalog.mk documents).NoNameMetTwice ∧
        (Catalog.mk documents).NoGroupInItself) ∧
    (¬(Catalog.mk documents).AllDefined → ∃ r,
      ofDocuments documents = .error (.faulty (.unresolved r)) ∧
      ¬(Catalog.mk documents).Defined r ∧ ∃ x, (Catalog.mk documents).Holds x ∧ x.Uses r) := by
  refine ⟨ofDocuments_ok_iff.trans Catalog.fault_eq_none_iff, fun h => ?_⟩
  obtain ⟨r, hfault, hr, hx⟩ := Catalog.fault_of_not_allDefined h
  exact ⟨r, ofDocuments_of_fault hfault, hr, hx⟩

end SchemaSet

end SchemaShapes
