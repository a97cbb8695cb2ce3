import Mathlib.Algebra.GroupWithZero.Nat
import SchemaShapes.Proofs.Shape.Soundness

/-! Totals over whole elements. The body of a record keeps the branches of the group that the content
of its element is, and not how often that group may occur. So over a whole element a child stands as
often as the multiplicities of the group and of the child admit together, which is what the child's
own multiplicity says if the group occurs once, and not otherwise. -/
namespace SchemaShapes

/-- How often something is there that stands in what is there as often as the first multiplicity
says, and in each as often as the second says. -/
def Multiplicity.times : Multiplicity → Multiplicity → Multiplicity
  | .single, m => m
  | m, .single => m
  | .optional, .optional => .optional
  | _, _ => .multiple

theorem Multiplicity.Admits.sum {m n : Multiplicity} {counts : List ℕ}
    (hm : m.Admits counts.length) (hn : ∀ i ∈ counts, n.Admits i) :
    (m.times n).Admits counts.sum := by
  cases m with
  | single =>
    obtain ⟨i, rfl⟩ := List.length_eq_one_iff.mp hm
    simpa [times] using hn
  | optional =>
    -- There is nothing, or one thing whose count is the sum.
    match counts, hm, hn with
    | [], _, _ => cases n <;> simp [times, Admits]
    | [i], _, hn =>
      have hi : n.Admits [i].sum := by simpa using hn
      cases n with
      | single => exact Nat.le_of_eq hi
      | optional => exact hi
      | multiple => trivial
    | _ :: _ :: _, hm, _ => simp [Admits] at hm
  | multiple => cases n <;> trivial

/-- How many parts of an occurrence stand under a tag. -/
def Occurrence.count (tag : BranchTag) : Occurrence → ℕ
  | .group parts => parts.countP (·.tag = tag)
  | _ => 0

/-- How many parts of occurrences stand under a tag, all of them together. -/
def Occurrence.total (tag : BranchTag) (os : List Occurrence) : ℕ :=
  (os.map (Occurrence.count tag)).sum

namespace Tree

theorem OneOf.count_branch {k : Compositor} {occurs : Occurs} {children : List Particle}
    {o : Occurrence} (h : OneOf (.group k occurs children) o)
    (hd : (children.map Particle.tag).Nodup) : ∀ p ∈ children,
      (k.adapt p.branch).multiplicity.Admits (o.count p.tag) := by
  cases o with
  | group parts => exact h.count_admitted hd
  | _ => cases h

/-- The total under the tag of a child is admitted by the multiplicities of the group and the
child. -/
theorem AllOf.total_admitted {k : Compositor} {occurs : Occurs} {children : List Particle}
    {os : List Occurrence} (h : AllOf (.group k occurs children) os)
    (hd : (children.map Particle.tag).Nodup) : ∀ p ∈ children,
      (occurs.multiplicity.times (k.adapt p.branch).multiplicity).Admits
        (Occurrence.total p.tag os) := by
  intro p hp
  refine Multiplicity.Admits.sum ?_ ?_
  · rw [List.length_map]
    exact Occurs.admits_of_allows h.allows
  · intro i hi
    obtain ⟨o, ho, rfl⟩ := List.mem_map.mp hi
    exact (h.oneOf o ho).count_branch hd p hp

/-- The first property of an element whose content is a group is the collection of its children,
and in every such element the total under the tag of a branch is admitted by the multiplicities of
the group and the branch together. It is admitted by that of the branch wherever the two together
are no other, as they are if the group occurs once. -/
theorem element_total_admitted (attributes : List Attribute) (k : Compositor) (occurs : Occurs)
    (children : List Particle) (mixed : Bool) (hd : (children.map Particle.tag).Nodup)
    (os : List Occurrence) (h : AllOf (.group k occurs children) os) :
    ∃ branches,
      (Description.properties ⟨attributes, .complex (.group k occurs children), mixed⟩).head? =
        some (.body (.collection branches)) ∧
      branches.map Branch.tag = children.map Particle.tag ∧
      ∀ b ∈ branches,
        (occurs.multiplicity.times b.multiplicity).Admits (Occurrence.total b.tag os) ∧
        (occurs.multiplicity.times b.multiplicity = b.multiplicity ∨ occurs = .once →
          b.multiplicity.Admits (Occurrence.total b.tag os)) := by
  refine ⟨children.map fun p => k.adapt p.branch, ?_, ?_, fun b hb => ?_⟩
  · rw [Description.properties, Contents.shape, shape_group hd]
    rfl
  · simp [Function.comp_def, Particle.tag]
  · obtain ⟨p, hp, rfl⟩ := List.mem_map.mp hb
    have htotal := h.total_admitted hd p hp
    rw [Compositor.adapt_tag]
    refine ⟨htotal, ?_⟩
    rintro (hsame | rfl)
    · rwa [hsame] at htotal
    · exact htotal

/-- A payment is by card, or by vouchers of any number. -/
def payment : Particle :=
  .group .choice .once
    [.element .once ⟨.bare "card", .simple .string, false⟩,
      .element .anyNumber ⟨.bare "voucher", .simple .string, false⟩]

/-- Two vouchers. -/
def vouchers : List Occurrence :=
  [.group [.element (.bare "voucher") [] (.text .string),
    .element (.bare "voucher") [] (.text .string)]]

theorem element_total_admitted_payment : AllOf payment vouchers ∧ ∃ branches,
    (Description.properties ⟨[], .complex payment, false⟩).head? =
      some (.body (.collection branches)) ∧
    branches.map Branch.tag = [.record (some "card"), .record (some "voucher")] ∧
    ∀ b ∈ branches,
      (Occurs.once.multiplicity.times b.multiplicity).Admits (Occurrence.total b.tag vouchers) ∧
      (Occurs.once.multiplicity.times b.multiplicity = b.multiplicity ∨ Occurs.once = .once →
        b.multiplicity.Admits (Occurrence.total b.tag vouchers)) := by
  have hvouchers : AllOf (.element .anyNumber ⟨.bare "voucher", .simple .string, false⟩)
      [.element (.bare "voucher") [] (.text .string),
        .element (.bare "voucher") [] (.text .string)] :=
    .intro (by decide : Occurs.anyNumber.Allows 2) (by simp [OneOf.simple])
  have h : AllOf payment vouchers := by
    refine .intro (by decide : Occurs.once.Allows 1) (List.forall_mem_singleton.mpr ?_)
    exact .choice (by simp) hvouchers
  exact ⟨h, element_total_admitted [] .choice .once _ false (by decide) vouchers h⟩

/-- A table of rows, each of which has one entry. -/
def table : Particle :=
  .group .sequence ⟨1, .unbounded⟩ [.element .once ⟨.bare "entry", .simple .int, false⟩]

/-- Two rows. -/
def rows : List Occurrence :=
  List.replicate 2 (.group [.element (.bare "entry") [] (.text .int)])

/-- The body of a table says that there is one entry, however many rows there are. -/
theorem table_total_refused : AllOf table rows ∧ ∃ b,
    (Description.properties ⟨[], .complex table, false⟩).head? =
      some (.body (.collection [b])) ∧
    b.tag = .record (some "entry") ∧ ¬b.multiplicity.Admits (Occurrence.total b.tag rows) := by
  have hentry : AllOf (.element .once ⟨.bare "entry", .simple .int, false⟩)
      [.element (.bare "entry") [] (.text .int)] :=
    .intro (by decide : Occurs.once.Allows 1) (by simp [OneOf.simple])
  have h : AllOf table rows := by
    refine .intro (by decide : Occurs.Allows ⟨1, .unbounded⟩ 2) fun o ho => ?_
    rw [List.eq_of_mem_replicate ho]
    exact .sequence (.cons hentry .nil)
  exact ⟨h, _, rfl, rfl, by decide⟩

end Tree

end SchemaShapes
