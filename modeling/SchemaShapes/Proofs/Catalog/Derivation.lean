import SchemaShapes.Proofs.Graph.Reach
import SchemaShapes.Proofs.Graph.Walk
import SchemaShapes.Proofs.Catalog.Recursion

/-! Derivation without circles. A complex type is derived from the complex type that its base means,
a simple type from the one that its base means or that is written inside it, and an attribute group
brings the groups that it refers to. In a catalog without faults none of this ever comes back to
where it started, for any type or group, wherever it is written. -/
namespace SchemaShapes.Catalog

open SchemaShapes.Graph
open Relation (ReflTransGen TransGen)
open Schema

variable {c : Catalog}

/-- The first complex type is derived from the second: that is what the name of its base means. -/
def DerivesFrom (c : Catalog) (t u : Located ComplexType) : Prop :=
  ∃ q, t.value.base = some q ∧ c.complexNamed q = some u

/-- The first simple type is restricted from the second, which is written inside it or is what the
name of its base means. Builtin types come before those of the documents. -/
inductive RestrictedFrom (c : Catalog) : SimpleType → SimpleType → Prop
  | inside {name : Option QName} {t : SimpleType} : RestrictedFrom c (.refinement name t) t
  | named {name : Option QName} {q : QName} {t : SimpleType} (hq : TypeCode.builtin? q = none)
    (ht : c.findSimpleType q = some t) : RestrictedFrom c (.restriction name q) t

/-- The first attribute group refers to the second. -/
def Brings (c : Catalog) (g g' : AttributeGroup) : Prop :=
  ∃ q, .group q ∈ g.items ∧ c.findAttributeGroup q = some g'

/-! ### Lookups -/

theorem mem_complexTypeNames {q : QName} {t : Located ComplexType}
    (h : c.findComplexType q = some t) : q ∈ c.complexTypeNames :=
  List.mem_filterMap.mpr ⟨t.value, findComplexType_eq_some h⟩

theorem mem_simpleTypeNames {q : QName} {t : SimpleType} (h : c.findSimpleType q = some t) :
    q ∈ c.simpleTypeNames :=
  List.mem_filterMap.mpr ⟨t, findSimpleType_eq_some h⟩

theorem findAttributeGroup_of_mem_names {q : QName} (h : q ∈ c.attributeGroups.map (·.name)) :
    ∃ g, c.findAttributeGroup q = some g := by
  obtain ⟨g, hg, rfl⟩ := List.mem_map.mp h
  rw [findAttributeGroup_eq_find?]
  exact Option.isSome_iff_exists.mp (List.find?_isSome.mpr ⟨g, hg, by simp⟩)

theorem baseOfNamed_eq_some {q l : QName} (h : c.baseOfNamed q = some l) :
    ∃ t, c.findComplexType q = some t ∧ c.complexNamed q = some t ∧ t.value.base = some l := by
  obtain ⟨t, ht, hl⟩ := Option.bind_eq_some_iff.mp h
  unfold complexNamed at ht
  split_ifs at ht with h1 h2
  · cases ht
    cases hl
  · exact ⟨t, ht, by rw [complexNamed, if_neg h1, if_neg h2, ht], hl⟩

/-! ### What the absence of faults says -/

theorem circularityIn_eq_none (h : c.fault = none) {d : LoadedDocument} (hd : d ∈ c.documents) :
    c.circularityIn d.document = none :=
  List.findSome?_eq_none_iff.mp (Option.or_eq_none_iff.mp h).2 d hd

theorem complexTypeFault_eq_none (h : c.fault = none) {t : ComplexType} (ht : t ∈ c.complexTypes) :
    c.complexTypeFault t = none := by
  obtain ⟨d, hd, ht⟩ := List.mem_flatMap.mp ht
  exact List.findSome?_eq_none_iff.mp (Option.or_eq_none_iff.mp (circularityIn_eq_none h hd)).1 t ht

theorem simpleTypeFault_eq_none (h : c.fault = none) {t : SimpleType} (ht : t ∈ c.simpleTypes) :
    c.simpleTypeFault t = none := by
  obtain ⟨d, hd, ht⟩ := List.mem_flatMap.mp ht
  have hrest := (Option.or_eq_none_iff.mp (circularityIn_eq_none h hd)).2
  exact List.findSome?_eq_none_iff.mp (Option.or_eq_none_iff.mp hrest).1 t ht

theorem attributeGroupFault_eq_none (h : c.fault = none) {g : AttributeGroup}
    (hg : g ∈ c.attributeGroups) : c.attributeGroupFault g = none := by
  obtain ⟨d, hd, hg⟩ := List.mem_flatMap.mp hg
  have hrest := (Option.or_eq_none_iff.mp (circularityIn_eq_none h hd)).2
  exact List.findSome?_eq_none_iff.mp (Option.or_eq_none_iff.mp hrest).2 g hg

theorem walk_returns_of_derivationFault {next : QName → Option QName} {domain : List QName}
    {start base : QName} (h : derivationFault next domain (some start) (some base) = none) :
    (walk next domain [start] base).returns = false := by
  simpa [derivationFault] using h

/-- Walks along the bases of defined complex types end. -/
theorem walk_complexBase_ends (h : c.fault = none) (q : QName) :
    (walk c.complexBase c.complexTypeNames [] q).returns = false := by
  refine walk_returns_of_forall (fun k l hl => ?_) q
  obtain ⟨t, ht, hbase⟩ := Option.bind_eq_some_iff.mp hl
  obtain ⟨hmem, hname⟩ := findComplexType_eq_some ht
  have hfault := complexTypeFault_eq_none h hmem
  rw [complexTypeFault, hname, hbase] at hfault
  exact walk_returns_of_derivationFault hfault

/-- So do walks along the bases of the complex types that names mean, which never go further. -/
theorem walk_baseOfNamed_ends (h : c.fault = none) (q : QName) :
    (walk c.baseOfNamed c.complexTypeNames [] q).returns = false := by
  refine walk_returns_of_le (fun k l hl => ?_) (walk_complexBase_ends h q)
  obtain ⟨t, ht, -, hbase⟩ := baseOfNamed_eq_some hl
  exact Option.bind_eq_some_iff.mpr ⟨t, ht, hbase⟩

theorem walk_simpleBase_ends (h : c.fault = none) (q : QName) :
    (walk c.simpleBase c.simpleTypeNames [] q).returns = false := by
  refine walk_returns_of_forall (fun k l hl => ?_) q
  obtain ⟨t, ht, hbase⟩ := Option.bind_eq_some_iff.mp hl
  obtain ⟨hmem, hname⟩ := findSimpleType_eq_some ht
  have hfault := simpleTypeFault_eq_none h hmem
  rw [simpleTypeFault, hname, hbase] at hfault
  exact walk_returns_of_derivationFault hfault

theorem mem_names_of_baseOfNamed {k l : QName} (h : c.baseOfNamed k = some l) :
    k ∈ c.complexTypeNames := by
  obtain ⟨t, ht, -, -⟩ := baseOfNamed_eq_some h
  exact mem_complexTypeNames ht

theorem mem_names_of_simpleBase {k l : QName} (h : c.simpleBase k = some l) :
    k ∈ c.simpleTypeNames := by
  obtain ⟨t, ht, -⟩ := Option.bind_eq_some_iff.mp h
  exact mem_simpleTypeNames ht

/-! ### Types -/

/-- Only finitely many complex types are derived from each other. -/
theorem derivesFrom_wellFounded (h : c.fault = none) :
    WellFounded fun u t => c.DerivesFrom t u := by
  have names := wellFounded_of_walks (fun _ _ => mem_names_of_baseOfNamed) (walk_baseOfNamed_ends h)
  have meant : ∀ q u, c.complexNamed q = some u → Acc (fun u t => c.DerivesFrom t u) u := by
    intro q
    induction q using names.induction with
    | _ q ih =>
      intro u hu
      refine Acc.intro u fun v hv => ?_
      obtain ⟨l, hl, hv⟩ := hv
      exact ih l (by rw [Follows, baseOfNamed, hu, Option.bind_some, hl]) v hv
  refine ⟨fun t => Acc.intro t fun u hu => ?_⟩
  obtain ⟨q, -, hu⟩ := hu
  exact meant q u hu

/-- Types without a name in between are left behind after finitely many steps. -/
theorem acc_of_base {t : SimpleType} (h : ∀ q u, t.base = some q → c.findSimpleType q = some u →
    Acc (fun u t => c.RestrictedFrom t u) u) : Acc (fun u t => c.RestrictedFrom t u) t := by
  induction t with
  | restriction name q =>
    refine Acc.intro _ fun u hu => ?_
    cases hu with
    | named hq ht => exact h q u rfl ht
  | refinement name t ih =>
    refine Acc.intro _ fun u hu => ?_
    cases hu
    exact ih h
  | list name => exact Acc.intro _ fun u hu => by cases hu
  | union name => exact Acc.intro _ fun u hu => by cases hu

/-- Only finitely many simple types are restricted from one after the other, however anonymous and
named ones alternate. -/
theorem restrictedFrom_wellFounded (h : c.fault = none) :
    WellFounded fun u t => c.RestrictedFrom t u := by
  have names := wellFounded_of_walks (fun _ _ => mem_names_of_simpleBase) (walk_simpleBase_ends h)
  have meant : ∀ q u, c.findSimpleType q = some u → Acc (fun u t => c.RestrictedFrom t u) u := by
    intro q
    induction q using names.induction with
    | _ q ih =>
      intro u hu
      refine acc_of_base fun l v hl hv => ih l ?_ v hv
      rw [Follows, simpleBase, hu, Option.bind_some, hl]
  exact ⟨fun t => acc_of_base fun q u _ hu => meant q u hu⟩

/-! ### Attribute groups -/

/-- A group refers to the name of a group. -/
def GroupStep (c : Catalog) (q l : QName) : Prop :=
  Step id c.groupsInside (c.attributeGroups.map (·.name)) q l

theorem groupsInside_eq {q : QName} {g : AttributeGroup} (h : c.findAttributeGroup q = some g) :
    c.groupsInside q = groupNames g.items := by
  simp [groupsInside, h]

theorem mem_groupNames_iff {q : QName} {items : List AttributeItem} :
    q ∈ groupNames items ↔ .group q ∈ items := by
  simp only [groupNames, List.mem_filterMap]
  constructor
  · rintro ⟨i, hi, hq⟩
    cases i <;> simp only [Option.some.injEq, reduceCtorEq] at hq
    rwa [hq] at hi
  · exact fun h => ⟨_, h, rfl⟩

theorem mem_names_of_findAttributeGroup {q : QName} {g : AttributeGroup}
    (h : c.findAttributeGroup q = some g) : q ∈ c.attributeGroups.map (·.name) := by
  obtain ⟨hg, rfl⟩ := findAttributeGroup_eq_some h
  exact List.mem_map_of_mem hg

theorem groupStep_acyclic (h : c.fault = none) (q : QName) : ¬TransGen c.GroupStep q q := by
  intro hcycle
  obtain ⟨l, hql, hlq⟩ := TransGen.head'_iff.mp hcycle
  have hq : q ∈ c.attributeGroups.map (·.name) := by
    obtain ⟨k, -, hkq⟩ := TransGen.tail'_iff.mp hcycle
    exact hkq.2
  obtain ⟨g, hg⟩ := findAttributeGroup_of_mem_names hq
  obtain ⟨hmem, rfl⟩ := findAttributeGroup_eq_some hg
  have hreach : g.name ∈ reached id c.groupsInside (c.attributeGroups.map (·.name))
      (groupNames g.items) := by
    refine (mem_reached_iff (S := fun _ => True) (fun _ _ _ _ => trivial)
      (fun _ _ _ _ h => h) (fun _ _ => trivial)).mpr ⟨l, ?_, hql.2, hlq⟩
    rw [← groupsInside_eq hg]
    exact hql.1
  have hfault := attributeGroupFault_eq_none h hmem
  rw [attributeGroupFault, if_pos hreach] at hfault
  cases hfault

/-- Groups are nested no deeper than there are groups. -/
theorem heightLe_groupStep (h : c.fault = none) {q : QName}
    (hq : q ∈ c.attributeGroups.map (·.name)) :
    HeightLe c.GroupStep c.attributeGroups.length q :=
  heightLe_of_acyclic (fun _ _ _ hb => hb.2) (fun q _ => groupStep_acyclic h q)
    (List.length_map _).le hq

/-- Only finitely many attribute groups are brought one after the other. -/
theorem brings_wellFounded (h : c.fault = none) : WellFounded fun g' g => c.Brings g g' := by
  have meant : ∀ q, Acc (fun b a => c.GroupStep a b) q →
      ∀ g, c.findAttributeGroup q = some g → Acc (fun g' g => c.Brings g g') g := by
    intro q hq
    induction hq with
    | intro q _ ih =>
      intro g hg
      refine Acc.intro g fun g' hg' => ?_
      obtain ⟨l, hl, hg'⟩ := hg'
      refine ih l ⟨?_, mem_names_of_findAttributeGroup hg'⟩ g' hg'
      rw [groupsInside_eq hg]
      exact mem_groupNames_iff.mpr hl
  refine ⟨fun g => Acc.intro g fun g' hg' => ?_⟩
  obtain ⟨q, -, hg'⟩ := hg'
  exact meant q (heightLe_groupStep h (mem_names_of_findAttributeGroup hg')).acc g' hg'

end SchemaShapes.Catalog
