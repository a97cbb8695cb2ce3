import SchemaShapes.Proofs.Catalog.Recursion

/-! Lookups by name. A declaration at the top level has a position: the number of its document and
its own number there. The index of a kind leads from a name to the first position at which the name
is declared, and lookups find what stands there. The global elements are those that are found under
their own names, in the order of their positions. -/
namespace SchemaShapes.Catalog

open Schema

variable {α : Type} {c : Catalog} {declared : Document → List α} {name : α → Option QName}
  {root : ℕ → Root} {q : QName}

/-- A declaration of a kind has a name, and none at an earlier position has it. -/
structure FirstDefinition (c : Catalog) (declared : Document → List α) (name : α → Option QName)
    (q : QName) (p : Position) (a : α) : Prop where
  declaredAt : c.DeclaredAt declared p a
  named : name a = some q
  first : ∀ p' a', c.DeclaredAt declared p' a' → name a' = some q → ¬p'.Before p

/-- A component is the very declaration at a position, not one that is equal to it. -/
def StandsAt (c : Catalog) (declared : Document → List α) (root : ℕ → Root) (p : Position)
    (x : Located α) : Prop :=
  c.DeclaredAt declared p x.value ∧ x.place = .top (root (c.number declared p))

theorem DeclaredAt.eq {p : Position} {a a' : α} (h : c.DeclaredAt declared p a)
    (h' : c.DeclaredAt declared p a') : a = a' := by
  obtain ⟨d, hd, ha⟩ := h
  obtain ⟨d', hd', ha'⟩ := h'
  obtain rfl := Option.some.inj (hd.symm.trans hd')
  exact Option.some.inj (ha.symm.trans ha')

theorem DeclaredAt.standsAt {p : Position} {a : α} (h : c.DeclaredAt declared p a) :
    c.StandsAt declared root p (c.located declared root (p, a)) :=
  ⟨h, rfl⟩

/-! ### Numbers of positions -/

theorem number_lt_of_declaredAt {p : Position} {a : α} (h : c.DeclaredAt declared p a) :
    c.number declared p <
      ((c.documents.take (p.document + 1)).flatMap (declared ·.document)).length := by
  obtain ⟨d, hd, ha⟩ := h
  obtain ⟨hitem, -⟩ := List.getElem?_eq_some_iff.mp ha
  rw [number, List.take_add_one, hd, Option.toList_some, List.flatMap_append, List.length_append,
    List.flatMap_singleton]
  omega

/-- Numbers go up with positions. -/
theorem number_lt_of_before {p q : Position} {a : α} (h : c.DeclaredAt declared p a)
    (hpq : p.Before q) : c.number declared p < c.number declared q := by
  rcases hpq with hlt | ⟨heq, hlt⟩
  · have hp := number_lt_of_declaredAt h
    have htake : c.documents.take (p.document + 1) <+: c.documents.take q.document :=
      List.take_prefix_take_left hlt
    obtain ⟨rest, hrest⟩ := htake
    unfold number at hp ⊢
    rw [← hrest, List.flatMap_append, List.length_append]
    omega
  · unfold number
    rw [heq]
    omega

theorem eq_of_number {p q : Position} {a b : α} (hp : c.DeclaredAt declared p a)
    (hq : c.DeclaredAt declared q b) (h : c.number declared p = c.number declared q) : p = q := by
  rcases p.before_or_eq_or_before q with hlt | heq | hlt
  · have := number_lt_of_before hp hlt
    omega
  · exact heq
  · have := number_lt_of_before hq hlt
    omega

theorem before_of_number_lt {p q : Position} {b : α} (hq : c.DeclaredAt declared q b)
    (h : c.number declared p < c.number declared q) : p.Before q := by
  rcases p.before_or_eq_or_before q with hlt | rfl | hlt
  · exact hlt
  · omega
  · have := number_lt_of_before hq hlt
    omega

/-- Declarations are listed in the order of their positions. -/
theorem pairwise_positioned (c : Catalog) (declared : Document → List α) :
    (c.positioned declared).Pairwise fun x y => x.1.Before y.1 := by
  have hnumbers :
      ((c.positioned declared).map fun x => c.number declared x.1).Pairwise (· < ·) := by
    have hcount := congrArg (List.map (·.2)) (c.zipIdx_declared declared)
    rw [List.zipIdx_map_snd, List.map_map] at hcount
    exact hcount ▸ List.pairwise_lt_range'
  refine (List.pairwise_map.mp hnumbers).imp_of_mem fun {x y} _ hy hlt => ?_
  exact before_of_number_lt (mem_positioned_iff.mp hy) hlt

/-! ### What an index leads to -/

theorem FirstDefinition.unique {p p' : Position} {a a' : α}
    (h : c.FirstDefinition declared name q p a) (h' : c.FirstDefinition declared name q p' a') :
    (p, a) = (p', a') := by
  rcases p.before_or_eq_or_before p' with hlt | rfl | hlt
  · exact absurd hlt (h'.first p a h.declaredAt h.named)
  · rw [h.declaredAt.eq h'.declaredAt]
  · exact absurd hlt (h.first p' a' h'.declaredAt h'.named)

/-- A lookup finds the first definition of a name. -/
theorem lookup_eq_some_iff {p : Position} {a : α} :
    c.lookup declared name q = some (p, a) ↔ c.FirstDefinition declared name q p a := by
  have hfirst : ∀ p a, c.lookup declared name q = some (p, a) →
      c.FirstDefinition declared name q p a := by
    intro p a h
    rw [lookup_eq] at h
    obtain ⟨ha, before, after, hlist, hbefore⟩ := List.find?_eq_some_iff_append.mp h
    have hsorted := c.pairwise_positioned declared
    rw [hlist] at hsorted
    refine ⟨mem_positioned_iff.mp (by simp [hlist]), by simpa using ha, ?_⟩
    intro p' a' hp' ha' hlt
    have hmem := mem_positioned_iff.mpr hp'
    rw [hlist, List.mem_append, List.mem_cons] at hmem
    rcases hmem with hmem | heq | hmem
    · simpa [ha'] using hbefore _ hmem
    · rw [Prod.mk.injEq] at heq
      exact hlt.not_before (heq.1 ▸ hlt)
    · exact hlt.not_before ((List.pairwise_cons.mp (List.pairwise_append.mp hsorted).2.1).1 _ hmem)
  refine ⟨hfirst p a, fun h => ?_⟩
  have hsome : (c.lookup declared name q).isSome := by
    rw [lookup_eq, List.find?_isSome]
    exact ⟨(p, a), mem_positioned_iff.mpr h.declaredAt, by simpa using h.named⟩
  obtain ⟨⟨p', a'⟩, hfound⟩ := Option.isSome_iff_exists.mp hsome
  rw [hfound, h.unique (hfirst p' a' hfound)]

/-- The index of a kind leads to the first definition of a name. -/
theorem get?_index_iff {p : Position} :
    (c.index declared name).get? q = some p ↔ ∃ a, c.FirstDefinition declared name q p a := by
  have hget : (c.index declared name).get? q = (c.lookup declared name q).map (·.1) := by
    rw [lookup_eq, index, Index.get?_ofDocuments]
    rfl
  rw [hget, Option.map_eq_some_iff]
  constructor
  · rintro ⟨⟨p, a⟩, h, rfl⟩
    exact ⟨a, lookup_eq_some_iff.mp h⟩
  · rintro ⟨a, h⟩
    exact ⟨(p, a), lookup_eq_some_iff.mpr h, rfl⟩

/-! ### Lookups -/

/-- A lookup finds under each name that is declared its first definition, and nothing under any
other name. -/
def FindsFirst (c : Catalog) (declared : Document → List α) (name : α → Option QName)
    (find : QName → Option α) : Prop :=
  ∀ q, (∀ a, find q = some a ↔ ∃ p, c.FirstDefinition declared name q p a) ∧
    ((find q).isSome ↔ ∃ d ∈ c.documents, ∃ a ∈ declared d.document, name a = some q)

/-- A lookup does so, and what it finds is the very declaration at the position of the
definition. -/
def LocatesFirst (c : Catalog) (declared : Document → List α) (name : α → Option QName)
    (root : ℕ → Root) (find : QName → Option (Located α)) : Prop :=
  ∀ q, (∀ x, find q = some x ↔
      ∃ p, c.FirstDefinition declared name q p x.value ∧ c.StandsAt declared root p x) ∧
    ((find q).isSome ↔ ∃ d ∈ c.documents, ∃ a ∈ declared d.document, name a = some q)

theorem findsFirst (c : Catalog) (declared : Document → List α) (name : α → Option QName) :
    c.FindsFirst declared name fun q => (c.lookup declared name q).map (·.2) := by
  refine fun q => ⟨fun a => ?_, by
    rw [Option.isSome_map, isSome_lookup_iff, exists_declared_iff]⟩
  rw [Option.map_eq_some_iff]
  constructor
  · rintro ⟨⟨p, a⟩, h, rfl⟩
    exact ⟨p, lookup_eq_some_iff.mp h⟩
  · rintro ⟨p, h⟩
    exact ⟨(p, a), lookup_eq_some_iff.mpr h, rfl⟩

theorem locatesFirst (c : Catalog) (declared : Document → List α) (name : α → Option QName)
    (root : ℕ → Root) : c.LocatesFirst declared name root fun q =>
      (c.lookup declared name q).map (c.located declared root) := by
  refine fun q => ⟨fun x => ?_, by
    rw [Option.isSome_map, isSome_lookup_iff, exists_declared_iff]⟩
  rw [Option.map_eq_some_iff]
  constructor
  · rintro ⟨⟨p, a⟩, h, rfl⟩
    have hfirst := lookup_eq_some_iff.mp h
    exact ⟨p, hfirst, hfirst.declaredAt.standsAt⟩
  · rintro ⟨p, h, -, hplace⟩
    obtain ⟨place, a⟩ := x
    exact ⟨(p, a), lookup_eq_some_iff.mpr h, by rw [located, ← hplace]⟩

/-! ### Global elements -/

/-- A global element is one whose name leads to where it stands. -/
theorem globalElements_eq (c : Catalog) : c.globalElements =
    ((c.positioned Document.elements).filter fun x =>
      (c.index Document.elements (some ·.name)).get? x.2.name = some x.1).map
        (c.located Document.elements .element) := by
  rw [globalElements, positioned, Index.positioned, List.filter_flatMap, List.map_flatMap]
  refine List.flatMap_congr fun x _ => ?_
  rw [List.filter_map, List.map_map]
  rfl

/-- The global elements are those that are found under their own names. -/
theorem mem_globalElements_iff {e : Located Element} :
    e ∈ c.globalElements ↔ c.findElement e.value.name = some e := by
  rw [globalElements_eq, List.mem_map]
  constructor
  · rintro ⟨⟨p, a⟩, hmem, rfl⟩
    rw [List.mem_filter, decide_eq_true_eq] at hmem
    obtain ⟨hp, hindex⟩ := hmem
    obtain ⟨a', hfirst⟩ := get?_index_iff.mp hindex
    obtain rfl := hfirst.declaredAt.eq (mem_positioned_iff.mp hp)
    exact congrArg (Option.map _) (lookup_eq_some_iff.mpr hfirst)
  · intro h
    obtain ⟨⟨p, a⟩, hlookup, rfl⟩ := Option.map_eq_some_iff.mp h
    have hfirst := lookup_eq_some_iff.mp hlookup
    refine ⟨(p, a), List.mem_filter.mpr ⟨mem_positioned_iff.mpr hfirst.declaredAt, ?_⟩, rfl⟩
    exact decide_eq_true (get?_index_iff.mpr ⟨a, hfirst⟩)

/-- Global elements stand in the order of their positions. -/
theorem pairwise_globalElements : c.globalElements.Pairwise fun e e' =>
    ∃ p p', c.StandsAt Document.elements .element p e ∧
      c.StandsAt Document.elements .element p' e' ∧ p.Before p' := by
  rw [globalElements_eq, List.pairwise_map]
  refine ((c.pairwise_positioned _).filter _).imp_of_mem ?_
  rintro ⟨p, a⟩ ⟨p', a'⟩ hx hy hlt
  have hp := mem_positioned_iff.mp (List.mem_filter.mp hx).1
  have hp' := mem_positioned_iff.mp (List.mem_filter.mp hy).1
  exact ⟨p, p', hp.standsAt, hp'.standsAt, hlt⟩

/-- A declaration of a name after an earlier one is never found. -/
theorem findElement_ne_of_before {p p' : Position} {e e' : Located Element}
    (hp : c.StandsAt Document.elements .element p e)
    (hp' : c.StandsAt Document.elements .element p' e') (hname : e.value.name = e'.value.name)
    (hlt : p.Before p') (q : QName) : c.findElement q ≠ some e' := by
  intro hq
  obtain ⟨p'', hfirst, hp''⟩ := ((c.locatesFirst _ _ .element q).1 e').mp hq
  have hnumber : c.number Document.elements p' = c.number Document.elements p'' := by
    simpa [Place.top] using hp'.2.symm.trans hp''.2
  obtain rfl := eq_of_number hp'.1 hp''.1 hnumber
  exact hfirst.first p e.value hp.1 (by rw [hname]; exact hfirst.named) hlt

theorem nodup_globalElements : (c.globalElements.map (·.value.name)).Nodup := by
  refine List.pairwise_map.mpr (pairwise_globalElements.imp_of_mem ?_)
  rintro e e' - he' ⟨p, p', hp, hp', hlt⟩ hname
  exact findElement_ne_of_before hp hp' hname hlt _ (mem_globalElements_iff.mp he')

/-- The index of each kind leads from a name to its first definition, and the lookups find it, if
there is one. The global elements are the declarations that are found under their own names: each
once, with distinct names, in the order of their positions. A declaration of a name after the first
one is never found. -/
theorem first_definition_found (c : Catalog) :
    (∀ {α : Type} (declared : Document → List α) (name : α → Option QName) (q : QName)
      (p : Position), (c.index declared name).get? q = some p ↔
        ∃ a, c.FirstDefinition declared name q p a) ∧
    (c.LocatesFirst Document.elements (some ·.name) .element c.findElement ∧
      c.LocatesFirst Document.complexTypes ComplexType.name .complexType c.findComplexType ∧
      c.FindsFirst Document.simpleTypes SimpleType.name c.findSimpleType ∧
      c.LocatesFirst Document.groups (some ·.name) .group c.findGroup ∧
      c.FindsFirst Document.attributeGroups (some ·.name) c.findAttributeGroup ∧
      c.FindsFirst Document.attributes (some ·.name) c.findAttribute) ∧
    (∀ e, e ∈ c.globalElements ↔ c.findElement e.value.name = some e) ∧
    (c.globalElements.map (·.value.name)).Nodup ∧
    (c.globalElements.Pairwise fun e e' => ∃ p p', c.StandsAt Document.elements .element p e ∧
      c.StandsAt Document.elements .element p' e' ∧ p.Before p') ∧
    ∀ p p' e e', c.StandsAt Document.elements .element p e →
      c.StandsAt Document.elements .element p' e' → e.value.name = e'.value.name → p.Before p' →
      e' ∉ c.globalElements ∧ ∀ q, c.findElement q ≠ some e' := by
  refine ⟨fun _ _ _ _ => get?_index_iff, ⟨c.locatesFirst _ _ _, c.locatesFirst _ _ _,
    c.findsFirst _ _, c.locatesFirst _ _ _, c.findsFirst _ _, c.findsFirst _ _⟩,
    fun e => mem_globalElements_iff, nodup_globalElements, pairwise_globalElements, ?_⟩
  intro p p' e e' hp hp' hname hlt
  have hnot := findElement_ne_of_before hp hp' hname hlt
  exact ⟨fun hmem => hnot _ (mem_globalElements_iff.mp hmem), hnot⟩

end SchemaShapes.Catalog
