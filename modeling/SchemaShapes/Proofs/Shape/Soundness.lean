import Mathlib.Data.List.Forall2
import Mathlib.Data.List.Nodup
import SchemaShapes.Proofs.Shape.Occurrence

/-! Shapes are sound. If the children of each group of a particle have distinct tags, the collection
of a group has a branch for every child, and the shape of the particle describes each of its
occurrences: in every occurrence of a group, at every depth, a child stands as often as the
multiplicity under its tag admits. -/
namespace SchemaShapes

/-! ### Collections of groups -/

/-- What becomes of the branch of a child in a group. -/
def Compositor.adapt : Compositor → Branch → Branch
  | .choice, b => b.widen
  | _, b => b

@[simp] theorem Compositor.adapt_tag (k : Compositor) (b : Branch) : (k.adapt b).tag = b.tag := by
  cases k <;> rfl

@[simp] theorem Compositor.adapt_shape (k : Compositor) (b : Branch) :
    (k.adapt b).shape = b.shape := by
  cases k <;> rfl

theorem groupShape_eq_ofBranches (k : Compositor) (bs : List Branch) :
    groupShape k bs = .ofBranches (bs.map k.adapt) := by
  cases k with
  | choice => rfl
  | sequence => exact congrArg Shape.ofBranches (List.map_id bs).symm
  | all => exact congrArg Shape.ofBranches (List.map_id bs).symm

theorem groupShape_eq {k : Compositor} {bs : List Branch} (hd : (bs.map Branch.tag).Nodup) :
    groupShape k bs = .collection (bs.map k.adapt) := by
  have hkeys : ((bs.map k.adapt).map Branch.key).Nodup := by
    simpa only [List.map_map, Function.comp_def, Branch.key, Compositor.adapt_tag] using hd
  rw [groupShape_eq_ofBranches, Shape.ofBranches, Keyed.ofList_of_nodup hkeys]

namespace Tree

theorem branchesOf_eq (ps : List Particle) : branchesOf ps = ps.map Particle.branch := by
  induction ps with
  | nil => rfl
  | cons p ps ih => rw [branchesOf, ih, List.map_cons]

/-- No child of a group is lost if their tags are distinct. -/
theorem shape_group {k : Compositor} {occurs : Occurs} {children : List Particle}
    (hd : (children.map Particle.tag).Nodup) :
    (Particle.group k occurs children).branch.shape =
      .collection (children.map fun p => k.adapt p.branch) := by
  rw [Particle.branch, branchesOf_eq, groupShape_eq, List.map_map]
  · rfl
  · rwa [List.map_map]

/-! ### Particles inside each other -/

/-- The first particle stands at any depth in the second, or is it. -/
inductive Within : Particle → Particle → Prop
  | here {p : Particle} : Within p p
  | child {p q : Particle} {k : Compositor} {occurs : Occurs} {children : List Particle}
    (hq : q ∈ children) (h : Within p q) : Within p (.group k occurs children)
  | content {p q : Particle} {occurs : Occurs} {name : QName} {attributes : List Attribute}
    {mixed nillable : Bool} (h : Within p q) :
    Within p (.element occurs ⟨name, .complex ⟨attributes, .complex q, mixed⟩, nillable⟩)

/-- The children of each group in a particle, at any depth, have distinct tags. -/
def Particle.Distinct (p : Particle) : Prop :=
  ∀ k occurs children, Within (.group k occurs children) p → (children.map Particle.tag).Nodup

theorem Particle.distinct_group_iff {k : Compositor} {occurs : Occurs} {children : List Particle} :
    (Particle.group k occurs children).Distinct ↔
      (children.map Particle.tag).Nodup ∧ ∀ p ∈ children, p.Distinct := by
  constructor
  · intro h
    exact ⟨h k occurs children .here, fun _ hp l bounds inner hw => h l bounds inner (.child hp hw)⟩
  · rintro ⟨hd, hchildren⟩ l bounds inner hw
    cases hw with
    | here => exact hd
    | child hp hw => exact hchildren _ hp l bounds inner hw

theorem Particle.distinct_content_iff {occurs : Occurs} {name : QName} {attributes : List Attribute}
    {p : Particle} {mixed nillable : Bool} :
    (Particle.element occurs ⟨name, .complex ⟨attributes, .complex p, mixed⟩, nillable⟩).Distinct ↔
      p.Distinct := by
  constructor
  · exact fun h l bounds inner hw => h l bounds inner (.content hw)
  · intro h l bounds inner hw
    cases hw with
    | content hw => exact h l bounds inner hw

theorem Particle.distinct_simple {occurs : Occurs} {name : QName} {code : TypeCode}
    {nillable : Bool} : (Particle.element occurs ⟨name, .simple code, nillable⟩).Distinct := by
  intro l bounds inner hw
  cases hw

theorem Particle.distinct_any {occurs : Occurs} : (Particle.any occurs).Distinct := by
  intro l bounds inner hw
  cases hw

/-! ### Counts -/

/-- Each child of a group occurrence stands there as often as its branch admits. -/
theorem OneOf.count_admitted {k : Compositor} {occurs : Occurs} {children : List Particle}
    {parts : List Occurrence} (h : OneOf (.group k occurs children) (.group parts))
    (hd : (children.map Particle.tag).Nodup) : ∀ p ∈ children,
      (k.adapt p.branch).multiplicity.Admits (parts.countP (·.tag = p.tag)) := by
  intro p hp
  cases h with
  | sequence h => exact p.admits_of_allows (h.allows_count hd p hp)
  | all h hperm =>
    rw [hperm.countP_eq]
    exact p.admits_of_allows (h.allows_count hd p hp)
  | @choice _ _ q _ hq h =>
    by_cases htag : p.tag = q.tag
    · obtain rfl : p = q := List.inj_on_of_nodup_map hd hp hq htag
      rw [h.count_eq]
      exact (p.admits_of_allows h.allows).widen
    · rw [h.count_of_ne htag]
      exact p.branch.multiplicity.widen_admits_zero

theorem describes_group {k : Compositor} {occurs : Occurs} {children : List Particle}
    {parts : List Occurrence} (h : OneOf (.group k occurs children) (.group parts))
    (hd : (children.map Particle.tag).Nodup)
    (hparts : ∀ o ∈ parts, ∃ p ∈ children, OneOf p o ∧ Describes p.branch.shape o) :
    Describes (Particle.group k occurs children).branch.shape (.group parts) := by
  rw [shape_group hd]
  refine .collection (fun b hb => ?_) (fun o ho => ?_) (fun o ho b hb htag => ?_)
  · obtain ⟨p, hp, rfl⟩ := List.mem_map.mp hb
    rw [Compositor.adapt_tag]
    exact h.count_admitted hd p hp
  · obtain ⟨p, hp, hpo, -⟩ := hparts o ho
    exact ⟨_, List.mem_map_of_mem hp, by rw [Compositor.adapt_tag, hpo.tag_eq]; rfl⟩
  · obtain ⟨p, hp, hpo, hdescribes⟩ := hparts o ho
    obtain ⟨q, hq, rfl⟩ := List.mem_map.mp hb
    rw [Compositor.adapt_tag, hpo.tag_eq] at htag
    obtain rfl : q = p := List.inj_on_of_nodup_map hd hq hp htag
    rwa [Compositor.adapt_shape]

theorem hasValue_of_given {attributes : List Attribute} {values : List (QName × Option TypeCode)}
    (h : List.Forall₂ Attribute.Given attributes values) :
    List.Forall₂ (fun (p : Property) v => p.name = v.1.text ∧ p.shape.HasValue v.2)
      (attributes.map Attribute.property) values := by
  rw [List.forall₂_map_left_iff]
  refine h.imp fun a v hv => ?_
  obtain ⟨hname, hvalue⟩ := hv
  refine ⟨by rw [hname]; rfl, ?_⟩
  rcases hvalue with hvalue | ⟨hvalue, hoptional⟩
  · rw [hvalue]
    rfl
  · rw [hvalue]
    exact hoptional

/-! ### Descriptions -/

mutual

theorem OneOf.described {p : Particle} {o : Occurrence} : OneOf p o → p.Distinct →
    Describes p.branch.shape o
  | .empty, _ => .top
  | .any, _ => .anything
  | .simple, _ => .record (.text rfl) .nil
  | .text ha, _ => .record (.text rfl) (hasValue_of_given ha)
  | .parts ha h, hd =>
    .record (.parts (h.described (Particle.distinct_content_iff.mp hd))) (hasValue_of_given ha)
  | .sequence h, hd => by
    obtain ⟨hnodup, hchildren⟩ := Particle.distinct_group_iff.mp hd
    exact describes_group (.sequence h) hnodup (h.described hchildren)
  | .all h hperm, hd => by
    obtain ⟨hnodup, hchildren⟩ := Particle.distinct_group_iff.mp hd
    refine describes_group (.all h hperm) hnodup fun o ho => ?_
    exact h.described hchildren o (hperm.mem_iff.mp ho)
  | .choice hp h, hd => by
    obtain ⟨hnodup, hchildren⟩ := Particle.distinct_group_iff.mp hd
    refine describes_group (.choice hp h) hnodup fun o ho => ?_
    exact ⟨_, hp, h.oneOf o ho, h.described (hchildren _ hp) o ho⟩

theorem AllOf.described {p : Particle} {os : List Occurrence} : AllOf p os → p.Distinct →
    ∀ o ∈ os, Describes p.branch.shape o
  | .intro _ h, hd, o, ho => (h o ho).described hd

theorem EachOf.described {ps : List Particle} {os : List Occurrence} : EachOf ps os →
    (∀ p ∈ ps, p.Distinct) → ∀ o ∈ os, ∃ p ∈ ps, OneOf p o ∧ Describes p.branch.shape o
  | .nil, _, o, ho => by cases ho
  | .cons h hs, hd, o, ho => by
    rcases List.mem_append.mp ho with ho | ho
    · exact ⟨_, List.mem_cons_self, h.oneOf o ho,
        h.described (hd _ List.mem_cons_self) o ho⟩
    · obtain ⟨p, hp, hpo⟩ := hs.described (fun p hp => hd p (List.mem_cons_of_mem _ hp)) o ho
      exact ⟨p, List.mem_cons_of_mem _ hp, hpo⟩

end

/-- Where the children of each group have distinct tags, the collection of every group in a particle
has a branch with the shape of each child, in their order, and the shape of the particle describes
all of its occurrences. -/
theorem occurrences_described (p : Particle) (hd : p.Distinct) :
    (∀ k occurs children, Within (.group k occurs children) p → ∃ branches,
      (Particle.group k occurs children).branch.shape = .collection branches ∧
      branches.map (fun b => (b.tag, b.shape)) =
        children.map fun child => (child.branch.tag, child.branch.shape)) ∧
    ∀ o, OneOf p o → Describes p.branch.shape o := by
  refine ⟨fun k occurs children hw => ?_, fun o h => h.described hd⟩
  refine ⟨_, shape_group (hd k occurs children hw), ?_⟩
  simp [Function.comp_def]

/-- An address is at most one street or any number of boxes. -/
def address : Particle :=
  .group .choice ⟨1, .bounded 3⟩
    [.element .optional ⟨.bare "street", .simple .string, false⟩,
      .element .anyNumber ⟨.bare "box", .simple .int, false⟩]

/-- A parcel has a weight, which may be missing, and addresses. -/
def parcel : Element :=
  ⟨.bare "parcel", .complex ⟨[⟨.bare "weight", .decimal, true⟩], .complex address, false⟩, false⟩

/-- One parcel, and any elements behind it. -/
def shipment : Particle := .group .sequence .once [.element .once parcel, .any .once]

/-- A parcel without a weight that goes to two boxes and a street. -/
def sentParcel : Occurrence :=
  .element (.bare "parcel") [(.bare "weight", none)]
    (.parts [.group [.element (.bare "box") [] (.text .int), .element (.bare "box") [] (.text .int)],
      .group [.element (.bare "street") [] (.text .string)]])

theorem occurrences_described_shipment : shipment.Distinct ∧
    OneOf shipment (.group [sentParcel, .anything, .anything]) ∧
    (∀ k occurs children, Within (.group k occurs children) shipment → ∃ branches,
      (Particle.group k occurs children).branch.shape = .collection branches ∧
      branches.map (fun b => (b.tag, b.shape)) =
        children.map fun child => (child.branch.tag, child.branch.shape)) ∧
    Describes shipment.branch.shape (.group [sentParcel, .anything, .anything]) := by
  have hd : shipment.Distinct := by
    simp only [shipment, parcel, address, Particle.distinct_group_iff,
      Particle.distinct_content_iff, List.forall_mem_cons, Particle.distinct_simple,
      Particle.distinct_any, true_and]
    exact ⟨by decide, ⟨by decide, by simp⟩, by simp⟩
  have hstreet : AllOf (.element .optional ⟨.bare "street", .simple .string, false⟩)
      [.element (.bare "street") [] (.text .string)] :=
    .intro (by decide : Occurs.optional.Allows 1) (by simp [OneOf.simple])
  have hboxes : AllOf (.element .anyNumber ⟨.bare "box", .simple .int, false⟩)
      [.element (.bare "box") [] (.text .int), .element (.bare "box") [] (.text .int)] :=
    .intro (by decide : Occurs.anyNumber.Allows 2) (by simp [OneOf.simple])
  have haddress : AllOf address
      [.group [.element (.bare "box") [] (.text .int), .element (.bare "box") [] (.text .int)],
        .group [.element (.bare "street") [] (.text .string)]] := by
    refine .intro (by decide : Occurs.Allows ⟨1, .bounded 3⟩ 2) ?_
    simp only [List.forall_mem_cons]
    exact ⟨.choice (by simp) hboxes, .choice (by simp) hstreet, by simp⟩
  have hparcel : AllOf (.element .once parcel) [sentParcel] := by
    refine .intro (by decide : Occurs.once.Allows 1) (List.forall_mem_singleton.mpr ?_)
    exact .parts (.cons ⟨rfl, .inr ⟨rfl, rfl⟩⟩ .nil) haddress
  have hany : AllOf (.any .once) [.anything, .anything] :=
    .intro trivial (by simp [OneOf.any])
  have ho : OneOf shipment (.group [sentParcel, .anything, .anything]) :=
    .sequence (.cons hparcel (.cons hany .nil))
  have hmain := occurrences_described shipment hd
  exact ⟨hd, ho, hmain.1, hmain.2 _ ho⟩

end Tree

end SchemaShapes
