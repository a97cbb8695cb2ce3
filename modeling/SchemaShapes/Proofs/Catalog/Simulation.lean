import SchemaShapes.Proofs.Catalog.Agreement

/-! Component graphs that simulate each other. In catalogs that agree, edges from a component lead to
what edges from its twin lead to, and the twin of a component is the only one. So a component lies on
a cycle exactly if its twin does, although the search for cycles knows both by places that differ. -/
namespace SchemaShapes.Catalog

open Relation (TransGen)
open Schema

variable {c c' : Catalog} {R : Reference → Prop}

/-- Nodes that are one component in both catalogs. -/
inductive NodeTwins (c c' : Catalog) (R : Reference → Prop) : Node → Node → Prop
  | element {e e' : Located Element} (h : Twins c c' R .element e e') :
    NodeTwins c c' R (.element e) (.element e')
  | complexType {t t' : Located ComplexType} (h : Twins c c' R .complexType t t') :
    NodeTwins c c' R (.complexType t) (.complexType t')
  | modelGroup {g g' : Located ModelGroup} (h : Twins c c' R .modelGroup g g') :
    NodeTwins c c' R (.modelGroup g) (.modelGroup g')
  | group {d d' : Located GroupDefinition} (h : Twins c c' R .group d d') :
    NodeTwins c c' R (.group d) (.group d')

theorem NodeTwins.symm {n n' : Node} (h : NodeTwins c c' R n n') : NodeTwins c' c R n' n := by
  cases h with
  | element h => exact .element h.symm
  | complexType h => exact .complexType h.symm
  | modelGroup h => exact .modelGroup h.symm
  | group h => exact .group h.symm

theorem NodeTwins.place {n n' : Node} (h : NodeTwins c c' R n n') :
    SamePlace c c' n.place n'.place := by
  cases h with
  | element h => exact h.place
  | complexType h => exact h.place
  | modelGroup h => exact h.place
  | group h => exact h.place

/-- What particles lead to are twins. -/
theorem Agreement.particleNode (h : Agreement c c' R) {place place' : Place} {p : Particle}
    (hplace : SamePlace c c' place place') (hp : (Component.particle p).Covered R) :
    Option.Rel (NodeTwins c c' R) (c.particleNode place p) (c'.particleNode place' p) := by
  cases p with
  | element occurs e => exact .some (.element ⟨rfl, hplace, hp.part .element⟩)
  | elementRef occurs q =>
    have hfind := h.findElement (hp.of_uses .elementRef)
    rw [Catalog.particleNode, Catalog.particleNode]
    generalize c.findElement q = o, c'.findElement q = o' at hfind
    cases hfind with
    | some he => exact .some (.element he)
    | none => exact .none
  | any occurs ns => exact .none
  | group g => exact .some (.modelGroup ⟨rfl, hplace, hp.part .nested⟩)
  | groupRef occurs q =>
    have hfind := h.findGroup (hp.of_uses .groupRef)
    rw [Catalog.particleNode, Catalog.particleNode]
    generalize c.findGroup q = o, c'.findGroup q = o' at hfind
    cases hfind with
    | some hd => exact .some (.group hd)
    | none => exact .none

theorem exists_of_rel {α β : Type} {r : α → β → Prop} {o : Option α} {o' : Option β}
    (h : Option.Rel r o o') {a : α} (ha : o = some a) : ∃ b, o' = some b ∧ r a b := by
  cases h with
  | some hr =>
    cases ha
    exact ⟨_, rfl, hr⟩
  | none => cases ha

/-- An edge is there from a twin as well, and leads to a twin. -/
theorem Edge.simulate (h : Agreement c c' R) {n n' m : Node} (hn : NodeTwins c c' R n n')
    (he : c.Edge n m) : ∃ m', c'.Edge n' m' ∧ NodeTwins c c' R m m' := by
  cases he with
  | @type e t ht =>
    cases hn with
    | @element _ e' hn =>
      have htwins := h.elementType hn
      rw [ht] at htwins
      generalize ht' : c'.elementType e' = type' at htwins
      cases htwins with
      | complex hu => exact ⟨_, .type ht', .complexType hu⟩
  | @base t u q hq hu =>
    cases hn with
    | complexType hn =>
      have htwins := h.namedType (hn.covered.of_uses (.baseOfComplex hq))
      rw [namedType_eq_complex_iff.mpr hu] at htwins
      generalize hu' : c'.namedType q = type' at htwins
      cases htwins with
      | complex htwins =>
        exact ⟨_, .base (hn.value ▸ hq) (namedType_eq_complex_iff.mp hu'), .complexType htwins⟩
  | @content t p _ hp hm =>
    cases hn with
    | complexType hn =>
      obtain ⟨m', hm', htwins⟩ := exists_of_rel
        (h.particleNode (hn.place.part 0) (hn.covered.part (.particleOfType hp))) hm
      exact ⟨m', .content (hn.value ▸ hp) hm', htwins⟩
  | @particle g i p _ hp hm =>
    cases hn with
    | modelGroup hn =>
      obtain ⟨m', hm', htwins⟩ := exists_of_rel (h.particleNode (hn.place.part i)
        (hn.covered.part (.particleOfGroup (List.mem_of_getElem? hp)))) hm
      exact ⟨m', .particle (hn.value ▸ hp) hm', htwins⟩
  | @definition d g hg =>
    cases hn with
    | group hn =>
      exact ⟨_, .definition (hn.value ▸ hg),
        .modelGroup ⟨rfl, hn.place.part 0, hn.covered.part (.definition hg)⟩⟩

theorem path_simulate (h : Agreement c c' R) {n n' m : Node} (hn : NodeTwins c c' R n n')
    (hpath : TransGen c.Edge n m) : ∃ m', TransGen c'.Edge n' m' ∧ NodeTwins c c' R m m' := by
  induction hpath with
  | single he =>
    obtain ⟨m', he', hm⟩ := he.simulate h hn
    exact ⟨m', .single he', hm⟩
  | tail _ he ih =>
    obtain ⟨k', hpath', hk⟩ := ih
    obtain ⟨m', he', hm⟩ := he.simulate h hk
    exact ⟨m', hpath'.tail he', hm⟩

/-- A path back to a component leads back to its twin, the only component at that place. -/
theorem cycle_simulate (h : Agreement c c' R) {n n' : Node} (hn : NodeTwins c c' R n n')
    (hmem : n' ∈ c'.nodes) (hcycle : TransGen c.Edge n n) : TransGen c'.Edge n' n' := by
  obtain ⟨m', hpath, hm⟩ := path_simulate h hn hcycle
  have hm' : m' ∈ c'.nodes := mem_nodes_of_path hmem hpath.to_reflTransGen
  obtain rfl := eq_of_place hm' hmem (hm.place.unique hn.place)
  exact hpath

theorem isRecursive_eq (h : Agreement c c' R) {n n' : Node} (hn : NodeTwins c c' R n n')
    (hmem : n ∈ c.nodes) (hmem' : n' ∈ c'.nodes) : c.isRecursive n = c'.isRecursive n' := by
  rw [Bool.eq_iff_iff, isRecursive_iff hmem, isRecursive_iff hmem']
  exact ⟨cycle_simulate h hn hmem', cycle_simulate h.symm hn.symm hmem⟩

end SchemaShapes.Catalog
