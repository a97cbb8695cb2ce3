import SchemaShapes.Inference
import SchemaShapes.Proofs.Keyed

/-! Occurrences of particles, and what shapes say of them. A document that follows a content tree is
made of occurrences: of elements, of the groups that they stand in, and of what wildcards let in. A
shape describes an occurrence if the parts of each group stand under tags of its collection, each as
often as its branch admits. -/
namespace SchemaShapes

/-- An upper bound allows a number of occurrences. -/
def MaxOccurs.Allows : MaxOccurs → ℕ → Prop
  | .bounded m, n => n ≤ m.toNat
  | .unbounded, _ => True

instance (m : MaxOccurs) (n : ℕ) : Decidable (m.Allows n) :=
  match m with
  | .bounded m => inferInstanceAs (Decidable (n ≤ m.toNat))
  | .unbounded => inferInstanceAs (Decidable True)

/-- Bounds allow a number of occurrences. -/
def Occurs.Allows (o : Occurs) (n : ℕ) : Prop := o.min.toNat ≤ n ∧ o.max.Allows n

instance (o : Occurs) (n : ℕ) : Decidable (o.Allows n) :=
  inferInstanceAs (Decidable (_ ∧ _))

/-- A multiplicity admits a number of occurrences. -/
def Multiplicity.Admits : Multiplicity → ℕ → Prop
  | .single, n => n = 1
  | .optional, n => n ≤ 1
  | .multiple, _ => True

instance (m : Multiplicity) (n : ℕ) : Decidable (m.Admits n) :=
  match m with
  | .single => inferInstanceAs (Decidable (n = 1))
  | .optional => inferInstanceAs (Decidable (n ≤ 1))
  | .multiple => inferInstanceAs (Decidable True)

theorem Occurs.admits_of_allows {o : Occurs} {n : ℕ} (h : o.Allows n) : o.multiplicity.Admits n := by
  obtain ⟨hmin, hmax⟩ := h
  unfold multiplicity
  split_ifs with honce hoptional
  · subst honce
    have hlower : 1 ≤ n := hmin
    have hupper : n ≤ 1 := hmax
    exact Nat.le_antisymm hupper hlower
  · subst hoptional
    exact hmax
  · trivial

theorem Multiplicity.Admits.widen {m : Multiplicity} {n : ℕ} (h : m.Admits n) :
    m.widen.Admits n := by
  cases m with
  | single => exact Nat.le_of_eq h
  | optional => exact h
  | multiple => trivial

theorem Multiplicity.widen_admits_zero (m : Multiplicity) : m.widen.Admits 0 := by
  cases m with
  | single => exact Nat.zero_le 1
  | optional => exact Nat.zero_le 1
  | multiple => trivial

/-! ### Occurrences -/

mutual

/-- One occurrence of a particle. Of an element that a wildcard lets in nothing is known. -/
inductive Occurrence where
  | empty
  | anything
  | element (name : QName) (attributes : List (QName × Option TypeCode)) (content : Filling)
  | group (parts : List Occurrence)

/-- What stands in an element: text of a builtin type, or occurrences of its particle. -/
inductive Filling where
  | text (code : TypeCode)
  | parts (occurrences : List Occurrence)

end

/-- The tag that an occurrence stands under among its siblings. -/
def Occurrence.tag : Occurrence → BranchTag
  | .element name _ _ => .record (some name.text)
  | .anything => .record (some anyElement)
  | .empty => .collection
  | .group _ => .collection

namespace Tree

/-- A particle allows a number of occurrences in a row. The bounds of a wildcard are not looked
at. -/
def Particle.Allows : Particle → ℕ → Prop
  | .empty, n => n ≤ 1
  | .any _, _ => True
  | .element occurs _, n => occurs.Allows n
  | .group _ occurs _, n => occurs.Allows n

/-- An attribute has a value of its type, or none if it may be missing. -/
def Attribute.Given (a : Attribute) (given : QName × Option TypeCode) : Prop :=
  given.1 = a.name ∧ (given.2 = some a.type ∨ given.2 = none ∧ a.optional = true)

mutual

/-- One occurrence of a particle. A sequence has its children in order, an all group in any order,
and a choice has one of them. -/
inductive OneOf : Particle → Occurrence → Prop
  | empty : OneOf .empty .empty
  | any {occurs : Occurs} : OneOf (.any occurs) .anything
  | simple {occurs : Occurs} {name : QName} {code : TypeCode} {nillable : Bool} :
    OneOf (.element occurs ⟨name, .simple code, nillable⟩) (.element name [] (.text code))
  | text {occurs : Occurs} {name : QName} {attributes : List Attribute} {code : TypeCode}
    {mixed nillable : Bool} {values : List (QName × Option TypeCode)}
    (ha : List.Forall₂ Attribute.Given attributes values) :
    OneOf (.element occurs ⟨name, .complex ⟨attributes, .simple code, mixed⟩, nillable⟩)
      (.element name values (.text code))
  | parts {occurs : Occurs} {name : QName} {attributes : List Attribute} {p : Particle}
    {mixed nillable : Bool} {values : List (QName × Option TypeCode)} {os : List Occurrence}
    (ha : List.Forall₂ Attribute.Given attributes values) (h : AllOf p os) :
    OneOf (.element occurs ⟨name, .complex ⟨attributes, .complex p, mixed⟩, nillable⟩)
      (.element name values (.parts os))
  | sequence {occurs : Occurs} {children : List Particle} {os : List Occurrence}
    (h : EachOf children os) : OneOf (.group .sequence occurs children) (.group os)
  | all {occurs : Occurs} {children : List Particle} {os parts : List Occurrence}
    (h : EachOf children os) (hp : parts.Perm os) :
    OneOf (.group .all occurs children) (.group parts)
  | choice {occurs : Occurs} {children : List Particle} {p : Particle} {os : List Occurrence}
    (hp : p ∈ children) (h : AllOf p os) : OneOf (.group .choice occurs children) (.group os)

/-- As many occurrences of a particle as it allows. -/
inductive AllOf : Particle → List Occurrence → Prop
  | intro {p : Particle} {os : List Occurrence} (hn : p.Allows os.length)
    (h : ∀ o ∈ os, OneOf p o) : AllOf p os

/-- The occurrences of several particles, those of one after those of the other. -/
inductive EachOf : List Particle → List Occurrence → Prop
  | nil : EachOf [] []
  | cons {p : Particle} {ps : List Particle} {os rest : List Occurrence} (h : AllOf p os)
    (hs : EachOf ps rest) : EachOf (p :: ps) (os ++ rest)

end

/-- The tag that the occurrences of a particle stand under. -/
def Particle.tag (p : Particle) : BranchTag := p.branch.tag

theorem OneOf.tag_eq {p : Particle} {o : Occurrence} (h : OneOf p o) : o.tag = p.tag := by
  cases h <;> rfl

theorem AllOf.oneOf {p : Particle} {os : List Occurrence} (h : AllOf p os) :
    ∀ o ∈ os, OneOf p o := by
  cases h with
  | intro _ h => exact h

theorem AllOf.allows {p : Particle} {os : List Occurrence} (h : AllOf p os) :
    p.Allows os.length := by
  cases h with
  | intro hn _ => exact hn

theorem EachOf.exists_oneOf {ps : List Particle} {os : List Occurrence} (h : EachOf ps os) :
    ∀ o ∈ os, ∃ p ∈ ps, OneOf p o := by
  induction ps generalizing os with
  | nil =>
    cases h
    simp
  | cons p ps ih =>
    cases h with
    | cons h hs =>
      intro o ho
      rcases List.mem_append.mp ho with ho | ho
      · exact ⟨p, List.mem_cons_self, h.oneOf o ho⟩
      · obtain ⟨q, hq, hqo⟩ := ih hs o ho
        exact ⟨q, List.mem_cons_of_mem _ hq, hqo⟩

theorem AllOf.count_eq {p : Particle} {os : List Occurrence} (h : AllOf p os) :
    os.countP (·.tag = p.tag) = os.length := by
  refine List.countP_eq_length.mpr fun o ho => ?_
  simpa using (h.oneOf o ho).tag_eq

theorem AllOf.count_of_ne {p : Particle} {os : List Occurrence} (h : AllOf p os) {tag : BranchTag}
    (ht : tag ≠ p.tag) : os.countP (·.tag = tag) = 0 := by
  refine List.countP_eq_zero.mpr fun o ho => ?_
  rw [(h.oneOf o ho).tag_eq]
  simpa using Ne.symm ht

theorem EachOf.count_of_notMem {ps : List Particle} {os : List Occurrence} (h : EachOf ps os)
    {tag : BranchTag} (ht : tag ∉ ps.map Particle.tag) : os.countP (·.tag = tag) = 0 := by
  refine List.countP_eq_zero.mpr fun o ho => ?_
  obtain ⟨p, hp, hpo⟩ := h.exists_oneOf o ho
  have hne : p.tag ≠ tag := fun heq => ht (heq ▸ List.mem_map_of_mem hp)
  simpa [hpo.tag_eq] using hne

/-- Where tags are distinct, what stands under the tag of a child is what there is of it. -/
theorem EachOf.allows_count {ps : List Particle} {os : List Occurrence} (h : EachOf ps os)
    (hd : (ps.map Particle.tag).Nodup) :
    ∀ p ∈ ps, p.Allows (os.countP (·.tag = p.tag)) := by
  induction ps generalizing os with
  | nil => simp
  | cons p ps ih =>
    obtain ⟨hp, hps⟩ := List.nodup_cons.mp hd
    cases h with
    | @cons _ _ os rest h hs =>
      intro q hq
      rw [List.countP_append]
      rcases List.mem_cons.mp hq with rfl | hq
      · rw [h.count_eq, hs.count_of_notMem hp, Nat.add_zero]
        exact h.allows
      · have hne : q.tag ≠ p.tag := fun heq => hp (heq ▸ List.mem_map_of_mem hq)
        rw [h.count_of_ne hne, Nat.zero_add]
        exact ih hs hps q hq

theorem Particle.admits_of_allows {p : Particle} {n : ℕ} (h : p.Allows n) :
    p.branch.multiplicity.Admits n := by
  cases p with
  | empty => exact h
  | any => trivial
  | element => exact Occurs.admits_of_allows h
  | group => exact Occurs.admits_of_allows h

end Tree

/-! ### What shapes say -/

/-- A value that may be missing is one of a shape: the primitive value that its type becomes. -/
def Shape.HasValue : Shape → Option TypeCode → Prop
  | .primitive kind _ _, some code => code.primitive = kind
  | .primitive _ _ optional, none => optional = true
  | _, _ => False

mutual

/-- A shape describes an occurrence. Of a group, each part stands under the tag of a branch whose
shape describes it, and there are as many under a tag as the multiplicity admits. -/
inductive Describes : Shape → Occurrence → Prop
  | top {o : Occurrence} : Describes .top o
  | anything : Describes (.record (some anyElement) [.body .top] false) .anything
  | record {name : QName} {body : Shape} {properties : List Property}
    {values : List (QName × Option TypeCode)} {content : Filling}
    (hbody : DescribesFilling body content)
    (hvalues : List.Forall₂ (fun p v => p.name = v.1.text ∧ p.shape.HasValue v.2)
      properties values) :
    Describes (.record (some name.text) (.body body :: properties) false)
      (.element name values content)
  | collection {branches : List Branch} {parts : List Occurrence}
    (hcount : ∀ b ∈ branches, b.multiplicity.Admits (parts.countP (·.tag = b.tag)))
    (htag : ∀ o ∈ parts, ∃ b ∈ branches, b.tag = o.tag)
    (hparts : ∀ o ∈ parts, ∀ b ∈ branches, b.tag = o.tag → Describes b.shape o) :
    Describes (.collection branches) (.group parts)

/-- A shape describes what stands in an element: its text, or each occurrence in it. -/
inductive DescribesFilling : Shape → Filling → Prop
  | text {s : Shape} {code : TypeCode} (h : s.HasValue (some code)) :
    DescribesFilling s (.text code)
  | parts {s : Shape} {os : List Occurrence} (h : ∀ o ∈ os, Describes s o) :
    DescribesFilling s (.parts os)

end

end SchemaShapes
