import SchemaShapes.Proofs.Shape.Soundness

/-! Shapes are well formed. Whatever stands inside the shape of an element, at any depth, is the
shape of an element, a group or a wildcard of its tree, a primitive, or unknown content. So every
collection has distinct tags that fit what they hold and no more branches than its group has
children, every record is an element or a wildcard, and nothing else is unknown. -/
namespace SchemaShapes

/-- The first shape stands at any depth in the second, or is it. -/
inductive Shape.Inside : Shape → Shape → Prop
  | here {s : Shape} : Inside s s
  | property {s : Shape} {name : Option String} {properties : List Property} {optional : Bool}
    {p : Property} (hp : p ∈ properties) (h : Inside s p.shape) :
    Inside s (.record name properties optional)
  | branch {s : Shape} {bs : List Branch} {b : Branch} (hb : b ∈ bs) (h : Inside s b.shape) :
    Inside s (.collection bs)

/-- A branch that is tagged with a name holds a record of that name, which is never missing, and
any other branch holds a collection or something unknown. -/
def Branch.Fits (b : Branch) : Prop :=
  match b.tag with
  | .record (some name) => ∃ properties, b.shape = .record (some name) properties false
  | .record none => False
  | .collection => b.shape = .top ∨ ∃ bs, b.shape = .collection bs

namespace Tree

/-- The attributes of an element; one with a simple type has none. -/
def Element.attributes : Element → List Attribute
  | ⟨_, .simple _, _⟩ => []
  | ⟨_, .complex ⟨attributes, _, _⟩, _⟩ => attributes

/-- The type of an element is complex, with empty content. -/
def Element.IsEmpty (e : Element) : Prop :=
  ∃ attributes mixed, e.type = .complex ⟨attributes, .complex .empty, mixed⟩

/-! ### Shapes of particles -/

/-- The collection of a group has the branches of the children, each tag once. -/
theorem shape_group_eq (k : Compositor) (occurs : Occurs) (children : List Particle) :
    (Particle.group k occurs children).branch.shape =
      .collection (Keyed.ofList Branch.key (children.map fun p => k.adapt p.branch)) := by
  rw [Particle.branch, branchesOf_eq, groupShape_eq_ofBranches, List.map_map]
  rfl

theorem shape_element_eq (e : Element) : ∃ body,
    e.shape = .record (some e.name.text) (.body body :: e.attributes.map Attribute.property)
      false := by
  obtain ⟨name, type, nillable⟩ := e
  cases type with
  | simple code => exact ⟨_, rfl⟩
  | complex description =>
    obtain ⟨attributes, contents, mixed⟩ := description
    exact ⟨_, rfl⟩

theorem branch_fits (p : Particle) : p.branch.Fits := by
  cases p with
  | empty => exact .inl rfl
  | any occurs => exact ⟨_, rfl⟩
  | element occurs e =>
    obtain ⟨body, hbody⟩ := shape_element_eq e
    exact ⟨_, hbody⟩
  | group k occurs children => exact .inr ⟨_, shape_group_eq k occurs children⟩

/-- Only missing content has an unknown shape of its own. -/
theorem shape_eq_top_iff {p : Particle} : p.branch.shape = .top ↔ p = .empty := by
  cases p with
  | empty => exact ⟨fun _ => rfl, fun _ => rfl⟩
  | any occurs =>
    refine ⟨fun h => ?_, fun h => ?_⟩ <;> cases h
  | element occurs e =>
    obtain ⟨body, hbody⟩ := shape_element_eq e
    refine ⟨fun h => ?_, fun h => by cases h⟩
    cases hbody.symm.trans h
  | group k occurs children =>
    refine ⟨fun h => ?_, fun h => by cases h⟩
    cases (shape_group_eq k occurs children).symm.trans h

/-! ### What stands inside a shape -/

/-- What the shapes inside the shape of a particle come from: particles inside the particle, types
of text, and what wildcards stand for. -/
inductive Origin (p : Particle) : Shape → Prop
  | particle {q : Particle} (h : Within q p) : Origin p q.branch.shape
  | primitive (kind : Primitive) (optional : Bool) : Origin p (.plain kind optional)
  | unknown {occurs : Occurs} (h : Within (.any occurs) p) : Origin p .top

theorem Origin.child {p : Particle} {k : Compositor} {occurs : Occurs} {children : List Particle}
    (hp : p ∈ children) {s : Shape} (h : Origin p s) : Origin (.group k occurs children) s := by
  cases h with
  | particle h => exact .particle (.child hp h)
  | primitive kind optional => exact .primitive kind optional
  | unknown h => exact .unknown (.child hp h)

theorem Origin.content {p : Particle} {occurs : Occurs} {name : QName} {attributes : List Attribute}
    {mixed nillable : Bool} {s : Shape} (h : Origin p s) :
    Origin (.element occurs ⟨name, .complex ⟨attributes, .complex p, mixed⟩, nillable⟩) s := by
  cases h with
  | particle h => exact .particle (.content h)
  | primitive kind optional => exact .primitive kind optional
  | unknown h => exact .unknown (.content h)

theorem inside_plain {s : Shape} {kind : Primitive} {optional : Bool}
    (h : s.Inside (.plain kind optional)) : s = .plain kind optional := by
  cases h
  rfl

/-- Inside a record of a body and attributes there are the record, what is inside the body, and
primitives. -/
theorem inside_record {s body : Shape} {name : Option String} {attributes : List Attribute}
    (h : s.Inside (.record name (.body body :: attributes.map Attribute.property) false)) :
    s = .record name (.body body :: attributes.map Attribute.property) false ∨ s.Inside body ∨
      ∃ kind optional, s = .plain kind optional := by
  cases h with
  | here => exact .inl rfl
  | property hp h =>
    rcases List.mem_cons.mp hp with rfl | hp
    · exact .inr (.inl h)
    · obtain ⟨a, -, rfl⟩ := List.mem_map.mp hp
      exact .inr (.inr ⟨_, _, inside_plain h⟩)

mutual

theorem origin_of_inside {s : Shape} : (p : Particle) → s.Inside p.branch.shape → Origin p s
  | .empty, h => by
    cases h
    exact .particle .here
  | .any occurs, h => by
    have hrecord : s.Inside (.record (some anyElement)
        (.body .top :: ([] : List Attribute).map Attribute.property) false) := h
    rcases inside_record hrecord with rfl | h | ⟨kind, optional, rfl⟩
    · exact .particle (.here (p := .any occurs))
    · cases h
      exact .unknown .here
    · exact .primitive kind optional
  | .element occurs ⟨name, .simple code, nillable⟩, h => by
    have hrecord : s.Inside (.record (some name.text) (.body (.plain code.primitive nillable) ::
        ([] : List Attribute).map Attribute.property) false) := h
    rcases inside_record hrecord with rfl | h | ⟨kind, optional, rfl⟩
    · exact .particle (.here (p := .element occurs ⟨name, .simple code, nillable⟩))
    · rw [inside_plain h]
      exact .primitive _ _
    · exact .primitive kind optional
  | .element occurs ⟨name, .complex ⟨attributes, .simple code, mixed⟩, nillable⟩, h => by
    rcases inside_record h with rfl | h | ⟨kind, optional, rfl⟩
    · exact .particle (.here
        (p := .element occurs ⟨name, .complex ⟨attributes, .simple code, mixed⟩, nillable⟩))
    · rw [inside_plain h]
      exact .primitive _ _
    · exact .primitive kind optional
  | .element occurs ⟨name, .complex ⟨attributes, .complex q, mixed⟩, nillable⟩, h => by
    rcases inside_record h with rfl | h | ⟨kind, optional, rfl⟩
    · exact .particle (.here
        (p := .element occurs ⟨name, .complex ⟨attributes, .complex q, mixed⟩, nillable⟩))
    · exact (origin_of_inside q h).content
    · exact .primitive kind optional
  | .group k occurs children, h => by
    rw [shape_group_eq] at h
    cases h with
    | here =>
      rw [← shape_group_eq k occurs]
      exact .particle .here
    | branch hb h =>
      obtain ⟨p, hp, rfl⟩ := List.mem_map.mp (Keyed.mem_of_mem_ofList hb)
      rw [Compositor.adapt_shape] at h
      exact (origin_of_inside_some children p hp h).child hp

theorem origin_of_inside_some {s : Shape} : (ps : List Particle) → ∀ p ∈ ps,
    s.Inside p.branch.shape → Origin p s
  | [], p, hp, _ => by cases hp
  | q :: ps, p, hp, h => by
    rcases List.mem_cons.mp hp with heq | hp
    · rw [heq] at h ⊢
      exact origin_of_inside q h
    · exact origin_of_inside_some ps p hp h

end

/-! ### Collections and records -/

/-- What the branches of the collection of a group are. -/
structure GroupBranches (k : Compositor) (children : List Particle) (bs : List Branch) : Prop where
  nodup : (bs.map Branch.tag).Nodup
  /-- The tags are those of the children, though children can have a tag in common. -/
  tags : ∀ tag, tag ∈ bs.map Branch.tag ↔ tag ∈ children.map Particle.tag
  fits : ∀ b ∈ bs, b.Fits
  ne_nil : children ≠ [] → bs ≠ []
  length_le : bs.length ≤ children.length
  /-- No alternative has to be there. -/
  choice : k = .choice → ∀ b ∈ bs, b.multiplicity ≠ .single
  /-- What is unknown is a child without content. -/
  top : ∀ b ∈ bs, b.shape = .top → .empty ∈ children

theorem widen_ne_single (m : Multiplicity) : m.widen ≠ .single := by
  cases m <;> decide

theorem groupBranches_of_shape {k : Compositor} {occurs : Occurs} {children : List Particle}
    {bs : List Branch} (h : (Particle.group k occurs children).branch.shape = .collection bs) :
    GroupBranches k children bs := by
  obtain rfl := Shape.collection.inj ((shape_group_eq k occurs children).symm.trans h)
  have hchild : ∀ b ∈ Keyed.ofList Branch.key (children.map fun p => k.adapt p.branch),
      ∃ p ∈ children, b = k.adapt p.branch := by
    intro b hb
    obtain ⟨p, hp, rfl⟩ := List.mem_map.mp (Keyed.mem_of_mem_ofList hb)
    exact ⟨p, hp, rfl⟩
  refine ⟨Keyed.nodup_ofList _, fun tag => ?_, fun b hb => ?_, fun hne => ?_, ?_,
    fun hk b hb => ?_, fun b hb htop => ?_⟩
  · refine Keyed.mem_map_ofList_iff.trans ?_
    rw [List.map_map]
    simp only [Function.comp_def, Compositor.adapt_tag]
    rfl
  · obtain ⟨p, -, rfl⟩ := hchild b hb
    have hfits := branch_fits p
    rw [Branch.Fits] at hfits ⊢
    rwa [Compositor.adapt_tag, Compositor.adapt_shape]
  · rw [ne_eq, Keyed.ofList_eq_nil_iff, List.map_eq_nil_iff]
    exact hne
  · exact Nat.le_trans (Keyed.length_ofList_le _) (Nat.le_of_eq (List.length_map _))
  · subst hk
    obtain ⟨p, -, rfl⟩ := hchild b hb
    exact widen_ne_single _
  · obtain ⟨p, hp, rfl⟩ := hchild b hb
    rw [Compositor.adapt_shape, shape_eq_top_iff] at htop
    exact htop ▸ hp

theorem exists_group_of_shape {p : Particle} {bs : List Branch}
    (h : p.branch.shape = .collection bs) : ∃ k occurs children, p = .group k occurs children := by
  cases p with
  | empty => cases h
  | any occurs => cases h
  | element occurs e =>
    obtain ⟨body, hbody⟩ := shape_element_eq e
    cases hbody.symm.trans h
  | group k occurs children => exact ⟨k, occurs, children, rfl⟩

/-- Only the body of an element can be unknown, and only if its content is empty. -/
theorem isEmpty_of_top {e : Element} {name : Option String} {properties : List Property}
    {optional : Bool} (h : e.shape = .record name properties optional) :
    ∀ p ∈ properties, p.shape = .top → p.isBody ∧ e.IsEmpty := by
  have hattributes : ∀ (attributes : List Attribute), ∀ p ∈ attributes.map Attribute.property,
      p.shape ≠ .top := by
    intro attributes p hp htop
    obtain ⟨a, -, rfl⟩ := List.mem_map.mp hp
    cases htop
  intro p hp htop
  obtain ⟨own, type, nillable⟩ := e
  cases type with
  | simple code =>
    cases h
    rw [List.mem_singleton.mp hp] at htop
    cases htop
  | complex description =>
    obtain ⟨attributes, contents, mixed⟩ := description
    cases h
    rcases List.mem_cons.mp hp with rfl | hp
    · refine ⟨rfl, attributes, mixed, ?_⟩
      cases contents with
      | simple code => cases htop
      | complex q =>
        obtain rfl := shape_eq_top_iff.mp htop
        rfl
    · exact absurd htop (hattributes attributes p hp)

/-- The shape of an element is a record of its name, which is never missing, of a body and of its
attributes in order. Every collection in it, at any depth, is that of a group of its tree, and the
branches of any group have distinct tags that fit them, are no more than its children and at least
one if it has any, and are never needed in a choice. Every record in it is that of a wildcard or of
an element, whose body alone can be unknown, and is so only for empty content. -/
theorem shape_wellFormed (e : Element) :
    (∃ body, e.shape = .record (some e.name.text)
      (.body body :: e.attributes.map Attribute.property) false) ∧
    (∀ bs, Shape.Inside (.collection bs) e.shape → ∃ k occurs children,
      Within (.group k occurs children) (.element .once e) ∧
      (Particle.group k occurs children).branch.shape = .collection bs) ∧
    (∀ k occurs children, ∃ bs, (Particle.group k occurs children).branch.shape = .collection bs ∧
      GroupBranches k children bs) ∧
    ∀ name properties optional, Shape.Inside (.record name properties optional) e.shape →
      ((∃ occurs, Within (.any occurs) (.element .once e)) ∧
        wildcardBranch.shape = .record name properties optional) ∨
      ∃ occurs f, Within (.element occurs f) (.element .once e) ∧
        f.shape = .record name properties optional ∧
        ∀ p ∈ properties, p.shape = .top → p.isBody ∧ f.IsEmpty := by
  refine ⟨shape_element_eq e, fun bs h => ?_, fun k occurs children => ?_,
    fun name properties optional h => ?_⟩
  · have horigin := origin_of_inside (.element .once e) h
    generalize hs : Shape.collection bs = s at horigin
    cases horigin with
    | @particle q hq =>
      obtain ⟨k, occurs, children, rfl⟩ := exists_group_of_shape hs.symm
      exact ⟨k, occurs, children, hq, rfl⟩
    | primitive => cases hs
    | unknown => cases hs
  · exact ⟨_, shape_group_eq k occurs children, groupBranches_of_shape (shape_group_eq k occurs _)⟩
  · have horigin := origin_of_inside (.element .once e) h
    generalize hs : Shape.record name properties optional = s at horigin
    cases horigin with
    | @particle q hq =>
      cases q with
      | empty => cases hs
      | any occurs => exact .inl ⟨⟨occurs, hq⟩, rfl⟩
      | element occurs f => exact .inr ⟨occurs, f, hq, rfl, isEmpty_of_top hs.symm⟩
      | group k occurs children => cases hs.trans (shape_group_eq k occurs children)
    | primitive => cases hs
    | unknown => cases hs

end Tree

end SchemaShapes
