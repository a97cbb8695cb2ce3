import SchemaShapes.Proofs.Schema.Written

/-! Where components are written. Each component of a document, at any depth, is what something that
is written in the document is declared as: a component at the top level comes from an item of the
document, and the parts of a component come from what is written inside that. -/
namespace SchemaShapes.Schema

open Markup (Component)
open Relation (ReflTransGen)

section

variable {ctx : Context} {items : List Component}

/-! ### Bodies of complex types -/

/-- The component that a part is. -/
def Part.component : Part → Catalog.Component
  | .type t => .simpleType t
  | .particle p => .particle p
  | .attributes i => .attributeItem i

theorem declaredAs_of_partOf {c : Component} {part : Part} (h : partOf ctx c = some (.ok part)) :
    DeclaredAs ctx part.component c := by
  unfold partOf at h
  split at h
  · obtain ⟨t, ht, rfl⟩ := exists_of_map_eq_ok (Option.some.inj h)
    exact .simpleType ht
  · obtain ⟨p, hp, rfl⟩ := exists_of_map_eq_ok (Option.some.inj h)
    exact .particle (congrArg some hp)
  · obtain ⟨ps, hps, rfl⟩ := exists_of_map_eq_ok (Option.some.inj h)
    refine .particle ?_
    rw [particleOf, hps]
    rfl
  · obtain ⟨i, hi, rfl⟩ := exists_of_map_eq_ok (Option.some.inj h)
    exact .attributeItem (congrArg some hi)
  · obtain ⟨i, hi, rfl⟩ := exists_of_map_eq_ok (Option.some.inj h)
    exact .attributeItem (congrArg some hi)
  · cases h

/-- The parts that are left of what the items of a derivation declare. -/
def Parts.Has (ps : Parts) : Part → Prop
  | .type t => ps.type = some t
  | .particle p => ps.particle = some p
  | .attributes i => i ∈ ps.attributes

theorem Parts.has_add {ps : Parts} {part x : Part} (h : (ps.add part).Has x) :
    x = part ∨ ps.Has x := by
  cases part with
  | type t =>
    cases x with
    | type u =>
      have h : ps.type.or (some t) = some u := h
      cases htype : ps.type with
      | none =>
        rw [htype] at h
        exact .inl (congrArg Part.type (Option.some.inj h).symm)
      | some v =>
        rw [htype] at h
        exact .inr (htype.trans h)
    | particle p => exact .inr h
    | attributes i => exact .inr h
  | particle p =>
    cases x with
    | type u => exact .inr h
    | particle q => exact .inl (congrArg Part.particle (Option.some.inj h).symm)
    | attributes i => exact .inr h
  | attributes i =>
    cases x with
    | type u => exact .inr h
    | particle p => exact .inr h
    | attributes j => exact (List.mem_cons.mp h).imp (congrArg Part.attributes) id

theorem mem_of_declareParts {ps : Parts} (h : declareParts ctx items = .ok ps) {x : Part}
    (hx : ps.Has x) : ∃ c ∈ items, partOf ctx c = some (.ok x) := by
  induction items generalizing ps with
  | nil =>
    rw [declareParts] at h
    cases h
    cases x <;> cases hx
  | cons c rest ih =>
    rw [declareParts] at h
    split at h
    · obtain ⟨c', hc', hpart⟩ := ih h hx
      exact ⟨c', List.mem_cons_of_mem _ hc', hpart⟩
    · next r hr =>
      obtain ⟨part, hpart, h⟩ := exists_of_bind_eq_ok h
      obtain ⟨qs, hqs, h⟩ := exists_of_bind_eq_ok h
      cases h
      rcases Parts.has_add hx with rfl | hx
      · exact ⟨c, List.mem_cons_self, hr.trans (congrArg some hpart)⟩
      · obtain ⟨c', hc', hpart⟩ := ih hqs hx
        exact ⟨c', List.mem_cons_of_mem _ hc', hpart⟩

theorem mem_of_firstDerivation {d : Derivation} (h : firstDerivation ctx items = some (.ok d)) :
    ∃ c ∈ items, derivationOf ctx c = some (.ok d) := by
  refine exists_of_first (by rw [firstDerivation]) (fun c rest => ?_) h
  rw [firstDerivation]
  cases derivationOf ctx c <;> rfl

/-- A derivation has the parts that are written inside it and the base that it refers to. -/
theorem parts_of_derivationOf {c : Component} {d : Derivation}
    (h : derivationOf ctx c = some (.ok d)) :
    declareParts ctx c.items = .ok d.parts ∧ ∀ q, d.base = some q → ctx.Resolves q := by
  unfold derivationOf at h
  split at h
  · next written _ =>
    obtain ⟨base, hbase, h⟩ := exists_of_bind_eq_ok (Option.some.inj h)
    obtain ⟨parts, hparts, h⟩ := exists_of_bind_eq_ok h
    cases h
    refine ⟨hparts, fun q hq => ?_⟩
    cases written with
    | none =>
      cases hbase
      cases hq
    | some written =>
      rw [Option.mapM_some] at hbase
      obtain ⟨q', hq', heq⟩ := exists_of_map_eq_ok hbase
      rw [← heq] at hq
      cases hq
      exact ⟨written, hq'⟩
  · cases h

/-- The parts that are left in a body. -/
def Body.Has (b : Body) : Part → Prop
  | .type t => ∃ method base, b.content = .simple method base (some t)
  | .particle p => b.content = .particle (some p) ∨
      ∃ method base, b.content = .complex method base (some p)
  | .attributes i => i ∈ b.attributes

/-- The base that a body is derived from. -/
def Body.base (b : Body) : Option QName :=
  match b.content with
  | .particle _ => none
  | .simple _ base _ => some base
  | .complex _ base _ => some base

theorem Body.base_add (b : Body) (part : Part) : (b.add part).base = b.base := by
  obtain ⟨mixed, content, attributes⟩ := b
  cases part <;> cases content <;> rfl

theorem Body.mixed_add (b : Body) (part : Part) : (b.add part).mixed = b.mixed := by
  obtain ⟨mixed, content, attributes⟩ := b
  cases part <;> cases content <;> rfl

theorem Body.has_add {b : Body} {part x : Part} (h : (b.add part).Has x) :
    x = part ∨ b.Has x := by
  obtain ⟨mixed, content, attributes⟩ := b
  cases part with
  | type t => exact .inr h
  | particle p =>
    cases content with
    | particle own =>
      cases x with
      | type u =>
        obtain ⟨method, base, h⟩ := h
        cases h
      | particle q =>
        rcases h with h | ⟨method, base, h⟩
        · exact .inl (congrArg Part.particle (Option.some.inj (Content.particle.inj h)).symm)
        · cases h
      | attributes i => exact .inr h
    | simple method base type => exact .inr h
    | complex method base own => exact .inr h
  | attributes i =>
    cases content with
    | particle own =>
      cases x with
      | type u => exact .inr h
      | particle q => exact .inr h
      | attributes j => exact (List.mem_cons.mp h).imp (congrArg Part.attributes) id
    | simple method base type => exact .inr h
    | complex method base own => exact .inr h

/-- What a derivation gives is derived from its base and has no other parts than it. -/
def Derivation.Gives (d : Derivation) (b : Body) : Prop :=
  b.base = d.base ∧ ∀ x, b.Has x → d.parts.Has x

theorem Body.gives_of_simple {mixed : Bool} {derivation : Option (Declared Derivation)} {b : Body}
    (h : Body.ofSimple mixed derivation = .ok b) :
    b.mixed = mixed ∧ ∃ d, derivation = some (.ok d) ∧ d.Gives b := by
  obtain ⟨d, hd, h⟩ := exists_of_bind_eq_ok h
  split at h
  · cases h
  · next hbase =>
    cases h
    refine ⟨rfl, d, ?_, hbase.symm, fun x hx => ?_⟩
    · cases derivation with
      | none => cases hd
      | some r => exact congrArg some hd
    · cases x with
      | type t =>
        obtain ⟨method, base, hcontent⟩ := hx
        exact (Content.simple.inj hcontent).2.2
      | particle p =>
        rcases hx with hcontent | ⟨method, base, hcontent⟩
        · cases hcontent
        · cases hcontent
      | attributes i => exact hx

theorem Body.gives_of_complex {mixed : Bool} {derivation : Option (Declared Derivation)} {b : Body}
    (h : Body.ofComplex mixed derivation = .ok b) :
    b.mixed = mixed ∧ ∃ d, derivation = some (.ok d) ∧ d.Gives b := by
  obtain ⟨d, hd, h⟩ := exists_of_bind_eq_ok h
  split at h
  · cases h
  · next hbase =>
    cases h
    refine ⟨rfl, d, ?_, hbase.symm, fun x hx => ?_⟩
    · cases derivation with
      | none => cases hd
      | some r => exact congrArg some hd
    · cases x with
      | type t =>
        obtain ⟨method, base, hcontent⟩ := hx
        cases hcontent
      | particle p =>
        rcases hx with hcontent | ⟨method, base, hcontent⟩
        · cases hcontent
        · exact (Content.complex.inj hcontent).2.2
      | attributes i => exact hx

/-- An item of a body is a part of it, or the content that a derivation written inside it gives. That
content is mixed as the type is, unless it is complex content that says otherwise. -/
theorem bodyItemOf_cases {mixed : Bool} {c : Component} {item : BodyItem}
    (h : bodyItemOf ctx mixed c = some (.ok item)) :
    (∃ part, item = .part part ∧ partOf ctx c = some (.ok part)) ∨
      ∃ b, item = .whole b ∧
        (b.mixed = mixed ∨ ∃ inner, c = .complexContent (some b.mixed) inner) ∧
        ∃ c' ∈ c.items, ∃ d, derivationOf ctx c' = some (.ok d) ∧ d.Gives b := by
  unfold bodyItemOf at h
  split at h
  · obtain ⟨b, hb, heq⟩ := exists_of_map_eq_ok (Option.some.inj h)
    obtain ⟨hmixed, d, hd, hgives⟩ := Body.gives_of_simple hb
    obtain ⟨c', hc', hdecl⟩ := mem_of_firstDerivation hd
    exact .inr ⟨b, heq.symm, .inl hmixed, c', hc', d, hdecl, hgives⟩
  · next own inner =>
    obtain ⟨b, hb, heq⟩ := exists_of_map_eq_ok (Option.some.inj h)
    obtain ⟨hmixed, d, hd, hgives⟩ := Body.gives_of_complex hb
    obtain ⟨c', hc', hdecl⟩ := mem_of_firstDerivation hd
    refine .inr ⟨b, heq.symm, ?_, c', hc', d, hdecl, hgives⟩
    cases own with
    | none => exact .inl hmixed
    | some own => exact .inr ⟨inner, by rw [hmixed, Option.getD_some]⟩
  · obtain ⟨p, hp, heq⟩ := exists_of_map_eq_ok (Option.some.inj h)
    exact .inl ⟨.particle p, heq.symm, by rw [partOf, hp]; rfl⟩
  · obtain ⟨ps, hps, heq⟩ := exists_of_map_eq_ok (Option.some.inj h)
    exact .inl ⟨_, heq.symm, by rw [partOf, hps]; rfl⟩
  · obtain ⟨i, hi, heq⟩ := exists_of_map_eq_ok (Option.some.inj h)
    exact .inl ⟨.attributes i, heq.symm, by rw [partOf, hi]; rfl⟩
  · obtain ⟨i, hi, heq⟩ := exists_of_map_eq_ok (Option.some.inj h)
    exact .inl ⟨.attributes i, heq.symm, by rw [partOf, hi]; rfl⟩
  · cases h

/-- The parts of a body are written among the items or, if content is derived, inside them. -/
theorem mem_of_declareBody {mixed : Bool} {b : Body} (h : declareBody ctx mixed items = .ok b)
    {x : Part} (hx : b.Has x) :
    ∃ c ∈ items, ∃ c', c.Inside c' ∧ partOf ctx c' = some (.ok x) := by
  induction items generalizing b with
  | nil =>
    rw [declareBody] at h
    cases h
    cases x with
    | type t =>
      obtain ⟨method, base, hcontent⟩ := hx
      cases hcontent
    | particle p =>
      rcases hx with hcontent | ⟨method, base, hcontent⟩
      · cases hcontent
      · cases hcontent
    | attributes i => cases hx
  | cons c rest ih =>
    have hlater : ∀ b', declareBody ctx mixed rest = .ok b' → b'.Has x →
        ∃ c' ∈ c :: rest, ∃ c'', c'.Inside c'' ∧ partOf ctx c'' = some (.ok x) := by
      intro b' hb' hx'
      obtain ⟨c', hc', hpart⟩ := ih hb' hx'
      exact ⟨c', List.mem_cons_of_mem _ hc', hpart⟩
    rw [declareBody] at h
    split at h
    · exact hlater b h hx
    · next r hr =>
      obtain ⟨item, hitem, h⟩ := exists_of_bind_eq_ok h
      have hr := hr.trans (congrArg some hitem)
      rcases bodyItemOf_cases hr with ⟨part, rfl, hpart⟩ | ⟨body, rfl, -, c', hc', d, hd, -, hparts⟩
      · obtain ⟨body, hbody, h⟩ := exists_of_bind_eq_ok h
        cases h
        rcases Body.has_add hx with rfl | hx
        · exact ⟨c, List.mem_cons_self, c, .refl, hpart⟩
        · exact hlater body hbody hx
      · cases h
        obtain ⟨c'', hc'', hpart⟩ := mem_of_declareParts (parts_of_derivationOf hd).1 (hparts x hx)
        exact ⟨c, List.mem_cons_self, c'', (ReflTransGen.single hc').tail hc'', hpart⟩

/-- The base of a body is one that a derivation refers to. -/
theorem resolves_of_declareBody {mixed : Bool} {b : Body} (h : declareBody ctx mixed items = .ok b)
    {q : QName} (hq : b.base = some q) : ctx.Resolves q := by
  induction items generalizing b with
  | nil =>
    rw [declareBody] at h
    cases h
    cases hq
  | cons c rest ih =>
    rw [declareBody] at h
    split at h
    · exact ih h hq
    · next r hr =>
      obtain ⟨item, hitem, h⟩ := exists_of_bind_eq_ok h
      have hr := hr.trans (congrArg some hitem)
      rcases bodyItemOf_cases hr with ⟨part, rfl, -⟩ | ⟨body, rfl, -, c', -, d, hd, hbase, -⟩
      · obtain ⟨body, hbody, h⟩ := exists_of_bind_eq_ok h
        cases h
        rw [Body.base_add] at hq
        exact ih hbody hq
      · cases h
        exact (parts_of_derivationOf hd).2 q (hbase.symm.trans hq)

/-- A body is mixed as the type is, unless complex content says otherwise. Nothing else makes it
mixed, its base included. -/
theorem mixed_of_declareBody {mixed : Bool} {b : Body} (h : declareBody ctx mixed items = .ok b) :
    b.mixed = mixed ∨ ∃ inner, .complexContent (some b.mixed) inner ∈ items := by
  induction items generalizing b with
  | nil =>
    rw [declareBody] at h
    cases h
    exact .inl rfl
  | cons c rest ih =>
    have hlater : ∀ b', declareBody ctx mixed rest = .ok b' →
        b'.mixed = mixed ∨ ∃ inner, .complexContent (some b'.mixed) inner ∈ c :: rest := by
      intro b' hb'
      rcases ih hb' with hmixed | ⟨inner, hinner⟩
      · exact .inl hmixed
      · exact .inr ⟨inner, List.mem_cons_of_mem c hinner⟩
    rw [declareBody] at h
    split at h
    · exact hlater b h
    · next r hr =>
      obtain ⟨item, hitem, h⟩ := exists_of_bind_eq_ok h
      have hr := hr.trans (congrArg some hitem)
      rcases bodyItemOf_cases hr with ⟨part, rfl, -⟩ | ⟨body, rfl, hmixed | ⟨inner, hc⟩, -⟩
      · obtain ⟨body, hbody, h⟩ := exists_of_bind_eq_ok h
        cases h
        rw [Body.mixed_add]
        exact hlater body hbody
      · cases h
        exact .inl hmixed
      · cases h
        exact .inr ⟨inner, hc ▸ List.mem_cons_self⟩

theorem exists_of_declareComplexType {name : Option String} {mixed : Option Bool} {t : ComplexType}
    (h : declareComplexType ctx name mixed items = .ok t) :
    ∃ b, declareBody ctx (mixed.getD false) items = .ok b ∧
      t = ⟨name.map ctx.globalName, b.mixed, b.content, b.attributes⟩ := by
  obtain ⟨b, hb, h⟩ := exists_of_bind_eq_ok h
  cases h
  exact ⟨b, eq_of_within hb, rfl⟩

/-- A complex type without a flag of its own or of its complex content is not mixed. -/
theorem mixed_of_declareComplexType {name : Option String} {t : ComplexType}
    (h : declareComplexType ctx name none items = .ok t)
    (hitems : ∀ own inner, .complexContent own inner ∈ items → own = none) : t.mixed = false := by
  obtain ⟨b, hb, rfl⟩ := exists_of_declareComplexType h
  rcases mixed_of_declareBody hb with hmixed | ⟨inner, hinner⟩
  · exact hmixed
  · cases hitems _ _ hinner

/-- The parts of a complex type are written inside it. -/
theorem exists_of_complexType_part {name : Option String} {mixed : Option Bool} {t : ComplexType}
    (h : declareComplexType ctx name mixed items = .ok t) {y : Catalog.Component}
    (hy : (Catalog.Component.complexType t).Part y) :
    ∃ c ∈ items, ∃ c', c.Inside c' ∧ DeclaredAs ctx y c' := by
  obtain ⟨b, hb, rfl⟩ := exists_of_declareComplexType h
  have hpart : ∀ x, b.Has x → ∃ c ∈ items, ∃ c', c.Inside c' ∧ DeclaredAs ctx x.component c' := by
    intro x hx
    obtain ⟨c, hc, c', hinside, hx⟩ := mem_of_declareBody hb hx
    exact ⟨c, hc, c', hinside, declaredAs_of_partOf hx⟩
  obtain ⟨mixed', content, attributes⟩ := b
  cases hy with
  | particleOfType hp =>
    refine hpart (.particle _) ?_
    cases content with
    | particle own => exact .inl (congrArg Content.particle hp)
    | simple method base type => cases hp
    | complex method base own => exact .inr ⟨method, base, congrArg (Content.complex _ _) hp⟩
  | simpleOfContent hc => exact hpart (.type _) ⟨_, _, hc⟩
  | itemOfType hi => exact hpart (.attributes _) hi

/-! ### Parts -/

/-- The parts of what a component is declared as are what is written inside that is declared as. -/
theorem DeclaredAs.part {x y : Catalog.Component} {c : Component} (h : DeclaredAs ctx x c)
    (hy : x.Part y) : ∃ c', c.Inside c' ∧ DeclaredAs ctx y c' := by
  cases h with
  | globalElement h =>
    obtain ⟨name, -, h⟩ := exists_of_declareGlobalElement h
    obtain ⟨c', hc', hdecl⟩ := mem_of_element_part h hy
    exact ⟨c', .single hc', hdecl⟩
  | localElement h =>
    obtain ⟨name, -, -, h⟩ := exists_of_declareLocalElement h
    obtain ⟨c', hc', hdecl⟩ := mem_of_element_part h hy
    exact ⟨c', .single hc', hdecl⟩
  | complexType h =>
    obtain ⟨c', hc', c'', hinside, hdecl⟩ := exists_of_complexType_part h hy
    exact ⟨c'', .head hc' hinside, hdecl⟩
  | simpleType h =>
    cases hy with
    | refinement =>
      obtain ⟨c', hc', c'', hc'', hdecl⟩ := mem_of_refinement h
      exact ⟨c'', .head hc' (.single hc''), hdecl⟩
  | particle h =>
    cases hy with
    | element =>
      obtain ⟨head, items, rfl, hdecl⟩ := exists_of_particleOf_element h
      exact ⟨_, .refl, .localElement hdecl⟩
    | nested =>
      obtain ⟨k, occurs, items, rfl, hdecl⟩ := exists_of_particleOf_group h
      exact ⟨_, .refl, .modelGroup hdecl⟩
  | modelGroup h =>
    cases hy with
    | particleOfGroup hp =>
      obtain ⟨c', hc', hdecl⟩ := mem_of_declareParticles h hp
      exact ⟨c', .single hc', .particle hdecl⟩
  | group h =>
    cases hy with
    | definition hg =>
      obtain ⟨c', hc', hdecl⟩ := mem_of_declareGroup h hg
      exact ⟨c', .single hc', hdecl⟩
  | globalAttribute h =>
    obtain ⟨name, -, h⟩ := exists_of_declareGlobalAttribute h
    cases hy with
    | simpleOfAttribute ht =>
      obtain ⟨c', hc', hdecl⟩ := mem_of_declareAttribute h ht
      exact ⟨c', .single hc', hdecl⟩
  | localAttribute h =>
    obtain ⟨name, -, -, h⟩ := exists_of_declareLocalAttribute h
    cases hy with
    | simpleOfAttribute ht =>
      obtain ⟨c', hc', hdecl⟩ := mem_of_declareAttribute h ht
      exact ⟨c', .single hc', hdecl⟩
  | attributeItem h =>
    cases hy with
    | declared =>
      obtain ⟨head, items, rfl, hdecl⟩ := exists_of_attributeItemOf_declared h
      exact ⟨_, .refl, .localAttribute hdecl⟩
  | attributeGroup h =>
    cases hy with
    | itemOfGroup hi =>
      obtain ⟨c', hc', hdecl⟩ := mem_of_declareAttributeGroup h hi
      exact ⟨c', .single hc', .attributeItem hdecl⟩

/-- An item adds what it is declared as, if anything, to what the items after it declare. -/
theorem components_declareItems_cons {c : Component} {rest : List Component} {d : Document}
    (h : declareItems ctx (c :: rest) = .ok d) : ∃ e, declareItems ctx rest = .ok e ∧
      ∀ x ∈ d.components, x ∈ e.components ∨ DeclaredAs ctx x c := by
  cases c with
  | link kind location ns =>
    obtain ⟨e, he, h⟩ := exists_of_bind_eq_ok h
    cases h
    exact ⟨e, he, fun _ => .inl⟩
  | element head inner =>
    obtain ⟨new, hnew, h⟩ := exists_of_bind_eq_ok h
    obtain ⟨e, he, h⟩ := exists_of_bind_eq_ok h
    cases h
    refine ⟨e, he, fun x hx => ?_⟩
    simp only [Document.components, List.map_cons, List.mem_append, List.mem_cons] at hx ⊢
    grind [DeclaredAs.globalElement]
  | complexType name mixed inner =>
    obtain ⟨new, hnew, h⟩ := exists_of_bind_eq_ok h
    obtain ⟨_, -, h⟩ := exists_of_bind_eq_ok h
    obtain ⟨e, he, h⟩ := exists_of_bind_eq_ok h
    cases h
    refine ⟨e, he, fun x hx => ?_⟩
    simp only [Document.components, List.map_cons, List.mem_append, List.mem_cons] at hx ⊢
    grind [DeclaredAs.complexType]
  | simpleType name inner =>
    obtain ⟨new, hnew, h⟩ := exists_of_bind_eq_ok h
    obtain ⟨_, -, h⟩ := exists_of_bind_eq_ok h
    obtain ⟨e, he, h⟩ := exists_of_bind_eq_ok h
    cases h
    refine ⟨e, he, fun x hx => ?_⟩
    simp only [Document.components, List.map_cons, List.mem_append, List.mem_cons] at hx ⊢
    grind [DeclaredAs.simpleType]
  | group name ref occurs inner =>
    obtain ⟨new, hnew, h⟩ := exists_of_bind_eq_ok h
    obtain ⟨e, he, h⟩ := exists_of_bind_eq_ok h
    cases h
    refine ⟨e, he, fun x hx => ?_⟩
    simp only [Document.components, List.map_cons, List.mem_append, List.mem_cons] at hx ⊢
    grind [DeclaredAs.group]
  | attributeGroup name ref inner =>
    obtain ⟨new, hnew, h⟩ := exists_of_bind_eq_ok h
    obtain ⟨e, he, h⟩ := exists_of_bind_eq_ok h
    cases h
    refine ⟨e, he, fun x hx => ?_⟩
    simp only [Document.components, List.map_cons, List.mem_append, List.mem_cons] at hx ⊢
    grind [DeclaredAs.attributeGroup]
  | «attribute» head inner =>
    obtain ⟨new, hnew, h⟩ := exists_of_bind_eq_ok h
    obtain ⟨e, he, h⟩ := exists_of_bind_eq_ok h
    cases h
    refine ⟨e, he, fun x hx => ?_⟩
    simp only [Document.components, List.map_cons, List.mem_append, List.mem_cons] at hx ⊢
    grind [DeclaredAs.globalAttribute]
  | simpleContent | complexContent | derivation | modelGroup | any | list | union | aside =>
    exact ⟨d, h, fun _ => .inl⟩

/-- What a document declares at its top level is what an item is declared as. -/
theorem exists_of_mem_components {d : Document} (h : declareItems ctx items = .ok d) :
    ∀ x ∈ d.components, ∃ c ∈ items, DeclaredAs ctx x c := by
  induction items generalizing d with
  | nil =>
    cases h
    simp [Document.components, Document.empty]
  | cons c rest ih =>
    obtain ⟨e, he, hcomponents⟩ := components_declareItems_cons h
    intro x hx
    rcases hcomponents x hx with hx | hdecl
    · obtain ⟨c', hc', hdecl⟩ := ih he x hx
      exact ⟨c', List.mem_cons_of_mem _ hc', hdecl⟩
    · exact ⟨c, List.mem_cons_self, hdecl⟩

/-- What a document declares, at any depth, is what something written in it is declared as. -/
theorem exists_of_holds {m : Markup.Document} {includer : Option String} {d : Document}
    (h : Document.declare m includer = .ok d) {x : Catalog.Component} (hx : d.Holds x) :
    ∃ c, m.Writes c ∧ DeclaredAs (.ofDocument m includer) x c := by
  obtain ⟨y, hy, hpath⟩ := hx
  induction hpath with
  | refl =>
    obtain ⟨c, hc, hdecl⟩ := exists_of_mem_components h _ hy
    exact ⟨c, ⟨c, hc, .refl⟩, hdecl⟩
  | tail _ hpart ih =>
    obtain ⟨c, ⟨item, hitem, hinside⟩, hdecl⟩ := ih
    obtain ⟨c', hinside', hdecl'⟩ := hdecl.part hpart
    exact ⟨c', ⟨item, hitem, hinside.trans hinside'⟩, hdecl'⟩

end

end SchemaShapes.Schema
