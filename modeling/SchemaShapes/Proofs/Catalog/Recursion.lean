import SchemaShapes.Proofs.Catalog.Index
import SchemaShapes.Proofs.Catalog.Nodes
import SchemaShapes.Proofs.Graph.Reach

/-! The component graph of a catalog. Every edge leads to a part or to a declaration at the top
level, so the nodes of a catalog are closed under edges, and two nodes at one place are the same
node. A component is therefore found to be recursive exactly if it lies on a cycle. -/
namespace SchemaShapes.Catalog

open Relation (ReflTransGen TransGen)
open Schema

variable {c : Catalog}

/-! ### Declarations at the top level -/

/-- A node is a declaration at the top level. -/
inductive TopLevel (c : Catalog) : Node → Prop
  | anyType : TopLevel c (.complexType ⟨.top .anyType, SchemaShapes.anyType⟩)
  | element {i : ℕ} {e : Element} (h : c.elements[i]? = some e) :
    TopLevel c (.element ⟨.top (.element i), e⟩)
  | complexType {i : ℕ} {t : ComplexType} (h : c.complexTypes[i]? = some t) :
    TopLevel c (.complexType ⟨.top (.complexType i), t⟩)
  | group {i : ℕ} {g : GroupDefinition} (h : c.groups[i]? = some g) :
    TopLevel c (.group ⟨.top (.group i), g⟩)

theorem TopLevel.place {n : Node} (h : c.TopLevel n) : ∃ root, n.place = .top root := by
  cases h <;> exact ⟨_, rfl⟩

theorem TopLevel.eq_of_place {n m : Node} (hn : c.TopLevel n) (hm : c.TopLevel m)
    (h : n.place = m.place) : n = m := by
  cases hn <;> cases hm <;> simp_all [Node.place, Place.top]

theorem topLevel_of_findElement {q : QName} {e : Located Element} (h : c.findElement q = some e) :
    c.TopLevel (.element e) := by
  obtain ⟨place, e⟩ := e
  rw [findElement_eq_firstNamed] at h
  obtain ⟨i, hi, rfl, -⟩ := firstNamed_eq_some h
  exact .element hi

theorem topLevel_of_findComplexType {q : QName} {t : Located ComplexType}
    (h : c.findComplexType q = some t) : c.TopLevel (.complexType t) := by
  obtain ⟨place, t⟩ := t
  rw [findComplexType_eq_firstNamed] at h
  obtain ⟨i, hi, rfl, -⟩ := firstNamed_eq_some h
  exact .complexType hi

theorem topLevel_of_findGroup {q : QName} {g : Located GroupDefinition}
    (h : c.findGroup q = some g) : c.TopLevel (.group g) := by
  obtain ⟨place, g⟩ := g
  rw [findGroup_eq_firstNamed] at h
  obtain ⟨i, hi, rfl, -⟩ := firstNamed_eq_some h
  exact .group hi

theorem topLevel_of_complexNamed {q : QName} {t : Located ComplexType}
    (h : c.complexNamed q = some t) : c.TopLevel (.complexType t) := by
  unfold complexNamed at h
  split_ifs at h
  · cases h
    exact .anyType
  · exact topLevel_of_findComplexType h

theorem namedType_eq_complex_iff {q : QName} {t : Located ComplexType} :
    c.namedType q = .complex t ↔ c.complexNamed q = some t := by
  unfold namedType
  cases c.complexNamed q with
  | some u => simp
  | none =>
    cases TypeCode.builtin? q with
    | some code => simp
    | none => cases c.findSimpleType q <;> simp

/-- The complex type of an element is written inside it or at the top level. -/
theorem part_or_topLevel_of_elementType {e : Located Element} {t : Located ComplexType}
    (h : c.elementType e = .complex t) :
    (Node.element e).Part (.complexType t) ∨ c.TopLevel (.complexType t) := by
  unfold elementType at h
  split at h
  · exact .inr (topLevel_of_complexNamed (namedType_eq_complex_iff.mp h))
  · next type ht =>
    cases h
    exact .inl (.type ht)
  · cases h
  · cases h
    exact .inr .anyType

/-- The node that a particle means is written there or at the top level. -/
theorem ownNode_or_topLevel_of_particleNode {place : Place} {p : Particle} {n : Node}
    (h : c.particleNode place p = some n) : ownNode place p = some n ∨ c.TopLevel n := by
  cases p with
  | element occurs e => exact .inl h
  | elementRef occurs q =>
    obtain ⟨e, he, rfl⟩ := Option.map_eq_some_iff.mp h
    exact .inr (topLevel_of_findElement he)
  | any occurs ns => cases h
  | group g => exact .inl h
  | groupRef occurs q =>
    obtain ⟨g, hg, rfl⟩ := Option.map_eq_some_iff.mp h
    exact .inr (topLevel_of_findGroup hg)

/-! ### Nodes -/

theorem exists_path_of_mem_nodes {n : Node} (h : n ∈ c.nodes) :
    ∃ r, c.TopLevel r ∧ ReflTransGen Node.Part r n := by
  have inherited : Node.Inherited fun n => ∃ r, c.TopLevel r ∧ ReflTransGen Node.Part r n :=
    fun n m ⟨r, hr, hn⟩ hm => ⟨r, hr, hn.tail hm⟩
  simp only [nodes, List.mem_append, List.mem_flatMap, Prod.exists,
    List.mem_zipIdx_iff_getElem?] at h
  rcases h with ((h | ⟨e, i, he, h⟩) | ⟨t, i, ht, h⟩) | ⟨g, i, hg, h⟩
  · exact anyType.forall_nodes inherited ⟨_, .anyType, .refl⟩ n h
  · exact e.forall_nodes inherited ⟨_, .element he, .refl⟩ n h
  · exact t.forall_nodes inherited ⟨_, .complexType ht, .refl⟩ n h
  · exact g.forall_nodes inherited ⟨_, .group hg, .refl⟩ n h

theorem mem_nodes_of_topLevel {n : Node} (h : c.TopLevel n) : n ∈ c.nodes := by
  simp only [nodes, List.mem_append, List.mem_flatMap, Prod.exists, List.mem_zipIdx_iff_getElem?]
  cases h with
  | anyType => exact .inl (.inl (.inl (by simp [anyType, ComplexType.nodes])))
  | @element i e h => exact .inl (.inl (.inr ⟨e, i, h, by cases e; simp [Element.nodes]⟩))
  | @complexType i t h => exact .inl (.inr ⟨t, i, h, by cases t; simp [ComplexType.nodes]⟩)
  | @group i g h => exact .inr ⟨g, i, h, by simp [GroupDefinition.nodes]⟩

theorem mem_nodes_of_part {n m : Node} (hn : n ∈ c.nodes) (h : n.Part m) : m ∈ c.nodes := by
  simp only [nodes, List.mem_append, List.mem_flatMap, Prod.exists] at hn ⊢
  rcases hn with ((hn | ⟨e, i, he, hn⟩) | ⟨t, i, ht, hn⟩) | ⟨g, i, hg, hn⟩
  · exact .inl (.inl (.inl (anyType.part_mem_nodes hn h)))
  · exact .inl (.inl (.inr ⟨e, i, he, e.part_mem_nodes hn h⟩))
  · exact .inl (.inr ⟨t, i, ht, t.part_mem_nodes hn h⟩)
  · exact .inr ⟨g, i, hg, g.part_mem_nodes hn h⟩

/-- The turns of a place lead from its root back to the same parts. -/
theorem eq_of_path_of_place {r s n m : Node} (hr : c.TopLevel r) (hs : c.TopLevel s)
    (hn : ReflTransGen Node.Part r n) (hm : ReflTransGen Node.Part s m)
    (h : n.place = m.place) : n = m := by
  -- The last turn of the common place tells the last parts apart, so both paths run back together.
  induction hn generalizing m with
  | refl =>
    obtain ⟨root, hroot⟩ := hr.place
    cases hm with
    | refl => exact hr.eq_of_place hs h
    | tail _ hp =>
      obtain ⟨i, hi⟩ := hp.place
      exact absurd (hi.symm.trans (h.symm.trans hroot)) Place.part_ne_top
  | tail _ hp ih =>
    obtain ⟨i, hi⟩ := hp.place
    cases hm with
    | refl =>
      obtain ⟨root, hroot⟩ := hs.place
      exact absurd (hi.symm.trans (h.trans hroot)) Place.part_ne_top
    | tail hm hp' =>
      obtain ⟨j, hj⟩ := hp'.place
      obtain ⟨hplace, -⟩ := Place.part_inj.mp (hi.symm.trans (h.trans hj))
      obtain rfl := ih hm hplace
      exact hp.eq_of_place hp' h

/-- A component is known by its place. -/
theorem eq_of_place {n m : Node} (hn : n ∈ c.nodes) (hm : m ∈ c.nodes)
    (h : n.place = m.place) : n = m := by
  obtain ⟨r, hr, hrn⟩ := exists_path_of_mem_nodes hn
  obtain ⟨s, hs, hsm⟩ := exists_path_of_mem_nodes hm
  exact eq_of_path_of_place hr hs hrn hsm h

/-! ### Edges -/

/-- The edges of the component graph: from an element to its complex type, from a complex type to
its base and to its own particle, from a model group to its particles, and from the definition of a
group to its model group. A particle that is a reference stands for what it refers to. -/
inductive Edge (c : Catalog) : Node → Node → Prop
  | type {e : Located Element} {t : Located ComplexType} (h : c.elementType e = .complex t) :
    Edge c (.element e) (.complexType t)
  | base {t u : Located ComplexType} {q : QName} (hq : t.value.base = some q)
    (hu : c.complexNamed q = some u) : Edge c (.complexType t) (.complexType u)
  | content {t : Located ComplexType} {p : Particle} {n : Node} (hp : t.value.ownParticle = some p)
    (hn : c.particleNode (t.place.part 0) p = some n) : Edge c (.complexType t) n
  | particle {g : Located ModelGroup} {i : ℕ} {p : Particle} {n : Node}
    (hp : g.value.particles[i]? = some p) (hn : c.particleNode (g.place.part i) p = some n) :
    Edge c (.modelGroup g) n
  | definition {d : Located GroupDefinition} {g : ModelGroup} (h : d.value.modelGroup = some g) :
    Edge c (.group d) (.modelGroup ⟨d.place.part 0, g⟩)

theorem mem_successors_iff {n m : Node} : m ∈ c.successors n ↔ c.Edge n m := by
  constructor
  · intro h
    cases n with
    | element e =>
      cases ht : c.elementType e with
      | complex t =>
        obtain rfl : m = .complexType t := by simpa [successors, ht] using h
        exact .type ht
      | _ => simp [successors, ht] at h
    | complexType t =>
      simp only [successors, List.mem_append, Option.mem_toList,
        Option.map_eq_some_iff, Option.bind_eq_some_iff] at h
      rcases h with ⟨u, ⟨q, hq, hu⟩, rfl⟩ | ⟨p, hp, hn⟩
      · exact .base hq hu
      · exact .content hp hn
    | modelGroup g =>
      simp only [successors, List.mem_filterMap, Prod.exists, List.mem_zipIdx_iff_getElem?] at h
      obtain ⟨p, i, hp, hn⟩ := h
      exact .particle hp hn
    | group d =>
      simp only [successors, Option.mem_toList, Option.map_eq_some_iff] at h
      obtain ⟨g, hg, rfl⟩ := h
      exact .definition hg
  · intro h
    cases h with
    | type h => simp [successors, h]
    | base hq hu => simp [successors, hq, hu]
    | content hp hn => simp [successors, hp, hn]
    | @particle g i p _ hp hn =>
      simp only [successors, List.mem_filterMap, Prod.exists, List.mem_zipIdx_iff_getElem?]
      exact ⟨p, i, hp, hn⟩
    | definition h => simp [successors, h]

theorem Edge.part_or_topLevel {n m : Node} (h : c.Edge n m) : n.Part m ∨ c.TopLevel m := by
  cases h with
  | type h => exact part_or_topLevel_of_elementType h
  | base hq hu => exact .inr (topLevel_of_complexNamed hu)
  | content hp hn =>
    rcases ownNode_or_topLevel_of_particleNode hn with h | h
    · exact .inl (.content hp h)
    · exact .inr h
  | particle hp hn =>
    rcases ownNode_or_topLevel_of_particleNode hn with h | h
    · exact .inl (.particle hp h)
    · exact .inr h
  | definition h => exact .inl (.definition h)

theorem mem_nodes_of_edge {n m : Node} (hn : n ∈ c.nodes) (h : c.Edge n m) : m ∈ c.nodes := by
  rcases h.part_or_topLevel with h | h
  · exact mem_nodes_of_part hn h
  · exact mem_nodes_of_topLevel h

theorem mem_nodes_of_path {n m : Node} (hn : n ∈ c.nodes) (h : ReflTransGen c.Edge n m) :
    m ∈ c.nodes := by
  induction h with
  | refl => exact hn
  | tail _ h ih => exact mem_nodes_of_edge ih h

theorem mem_nodes_of_mem_successors : ∀ n, n ∈ c.nodes → ∀ m ∈ c.successors n, m ∈ c.nodes :=
  fun _ hn _ hm => mem_nodes_of_edge hn (mem_successors_iff.mp hm)

theorem place_mem_places : ∀ n, n ∈ c.nodes → n.place ∈ c.places :=
  fun _ hn => List.mem_map_of_mem hn

/-- A component is recursive exactly if it lies on a cycle of the component graph. -/
theorem isRecursive_iff {n : Node} (hn : n ∈ c.nodes) :
    c.isRecursive n = true ↔ TransGen c.Edge n n := by
  have hkey : ∀ a b, a ∈ c.nodes → b ∈ c.nodes → a.place = b.place → a = b :=
    fun a b ha hb => eq_of_place ha hb
  have hreach (b : Node) : b ∈ Graph.reached Node.place c.successors c.places (c.successors n) ↔
      ∃ p ∈ c.successors n, p.place ∈ c.places ∧
        ReflTransGen (Graph.Step Node.place c.successors c.places) p b :=
    Graph.mem_reached_iff mem_nodes_of_mem_successors hkey (mem_nodes_of_mem_successors n hn)
  simp only [isRecursive, List.any_eq_true, decide_eq_true_eq]
  constructor
  · rintro ⟨m, hm, hmn⟩
    obtain ⟨p, hp, -, hpath⟩ := (hreach m).mp hm
    have hedge := mem_successors_iff.mp hp
    have hpath' : ReflTransGen c.Edge p m :=
      ReflTransGen.mono (fun _ _ h => mem_successors_iff.mp h.1) _ _ hpath
    have hm' : m ∈ c.nodes := mem_nodes_of_path (mem_nodes_of_edge hn hedge) hpath'
    obtain rfl := eq_of_place hm' hn hmn
    exact .head' hedge hpath'
  · intro h
    obtain ⟨p, hp, hpath⟩ := TransGen.head'_iff.mp h
    refine ⟨n, (hreach n).mpr ⟨p, mem_successors_iff.mpr hp, ?_, ?_⟩, rfl⟩
    · exact place_mem_places p (mem_nodes_of_edge hn hp)
    · have main : ∀ m, ReflTransGen c.Edge p m →
          ReflTransGen (Graph.Step Node.place c.successors c.places) p m := by
        intro m hm
        induction hm with
        | refl => exact .refl
        | tail hpm hm ih =>
          have hin := mem_nodes_of_edge (mem_nodes_of_path (mem_nodes_of_edge hn hp) hpm) hm
          exact ih.tail ⟨mem_successors_iff.mpr hm, place_mem_places _ hin⟩
      exact main n hpath

end SchemaShapes.Catalog
