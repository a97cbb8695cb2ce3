import Mathlib.Data.Nat.Notation
import Mathlib.Logic.Relation
import SchemaShapes.Catalog.Recursion

/-! The nodes of a catalog as parts of its top level. A node is a declaration at the top level or a
part of a node, and a part is known by its place, so two nodes at one place are the same. Whatever
the edges of the component graph lead to is a node again. -/
namespace SchemaShapes

open Schema

namespace Catalog

/-- The node that a particle declares where it stands, if it does. -/
def ownNode (place : Place) : Particle → Option Node
  | .element _ e => some (.element ⟨place, e⟩)
  | .group g => some (.modelGroup ⟨place, g⟩)
  | _ => none

theorem place_of_ownNode {place : Place} {p : Particle} {n : Node} (h : ownNode place p = some n) :
    n.place = place := by
  cases p <;> simp only [ownNode, Option.some.injEq, reduceCtorEq] at h
  all_goals subst h; rfl

/-- A node is written directly inside another one. -/
inductive Node.Part : Node → Node → Prop
  | type {e : Located Element} {t : ComplexType} (h : e.value.type = .complex t) :
    Part (.element e) (.complexType ⟨e.place.part 0, t⟩)
  | content {t : Located ComplexType} {p : Particle} {n : Node} (h : t.value.ownParticle = some p)
    (hn : ownNode (t.place.part 0) p = some n) : Part (.complexType t) n
  | particle {g : Located ModelGroup} {i : ℕ} {p : Particle} {n : Node}
    (h : g.value.particles[i]? = some p) (hn : ownNode (g.place.part i) p = some n) :
    Part (.modelGroup g) n
  | definition {d : Located GroupDefinition} {g : ModelGroup} (h : d.value.modelGroup = some g) :
    Part (.group d) (.modelGroup ⟨d.place.part 0, g⟩)

theorem Node.Part.place {n m : Node} (h : n.Part m) : ∃ i, m.place = n.place.part i := by
  cases h with
  | type h => exact ⟨0, rfl⟩
  | content h hn => exact ⟨0, place_of_ownNode hn⟩
  | particle h hn => exact ⟨_, place_of_ownNode hn⟩
  | definition h => exact ⟨0, rfl⟩

/-- A property of nodes that goes over to their parts. -/
def Node.Inherited (P : Node → Prop) : Prop := ∀ n m, P n → n.Part m → P m

/-- Parts of one node are told apart by their places. -/
theorem Node.Part.eq_of_place {n m m' : Node} (h : n.Part m) (h' : n.Part m')
    (hp : m.place = m'.place) : m = m' := by
  cases h with
  | type h =>
    cases h' with
    | type h' =>
      rw [h] at h'
      cases h'
      rfl
  | content h hn =>
    cases h' with
    | content h' hn' =>
      rw [h] at h'
      cases h'
      exact Option.some.inj (hn.symm.trans hn')
  | particle h hn =>
    cases h' with
    | particle h' hn' =>
      rw [place_of_ownNode hn, place_of_ownNode hn'] at hp
      obtain ⟨-, rfl⟩ := Place.part_inj.mp hp
      rw [h] at h'
      cases h'
      exact Option.some.inj (hn.symm.trans hn')
  | definition h =>
    cases h' with
    | definition h' =>
      rw [h] at h'
      cases h'
      rfl

end Catalog

open Catalog (Node ownNode)

namespace Schema

/-! ### Nodes inside a declaration -/

theorem mem_nodes_of_ownNode {place : Place} {p : Particle} {n : Node}
    (h : ownNode place p = some n) : n ∈ p.nodes place := by
  cases p with
  | element occurs e =>
    cases h
    cases e
    simp [Particle.nodes, Element.nodes]
  | group g =>
    cases h
    cases g
    simp [Particle.nodes, ModelGroup.nodes]
  | _ => cases h

theorem mem_nodesFrom_of_getElem? {place : Place} {n : Node} {ps : List Particle} {p : Particle}
    {i j : ℕ} (h : ps[j]? = some p) (hn : n ∈ p.nodes (place.part (i + j))) :
    n ∈ nodesFrom place i ps := by
  induction ps generalizing i j with
  | nil => simp at h
  | cons q ps ih =>
    rw [nodesFrom, List.mem_append]
    cases j with
    | zero =>
      obtain rfl : q = p := by simpa using h
      exact .inl hn
    | succ j =>
      refine .inr (ih (by simpa using h) ?_)
      rwa [show i + 1 + j = i + (j + 1) by omega]

mutual

/-- Parts of the nodes of an element are nodes of it. -/
theorem Element.part_mem_nodes {place : Place} : (e : Element) → {n m : Node} →
    n ∈ e.nodes place → n.Part m → m ∈ e.nodes place
  | ⟨name, nillable, type⟩, n, m, hn, h => by
    rw [Element.nodes] at hn ⊢
    rcases List.mem_cons.mp hn with rfl | hn
    · cases h with
      | @type _ t ht =>
        obtain rfl : type = .complex t := ht
        cases t
        simp [ElementType.nodes, ComplexType.nodes]
    · exact List.mem_cons_of_mem _ (type.part_mem_nodes hn h)

theorem ElementType.part_mem_nodes {place : Place} : (t : ElementType) → {n m : Node} →
    n ∈ t.nodes place → n.Part m → m ∈ t.nodes place
  | .complex t, n, m, hn, h => by
    rw [ElementType.nodes] at hn ⊢
    exact t.part_mem_nodes hn h
  | .named _, _, _, hn, _ => by simp [ElementType.nodes] at hn
  | .simple _, _, _, hn, _ => by simp [ElementType.nodes] at hn
  | .unspecified, _, _, hn, _ => by simp [ElementType.nodes] at hn

theorem ComplexType.part_mem_nodes {place : Place} : (t : ComplexType) → {n m : Node} →
    n ∈ t.nodes place → n.Part m → m ∈ t.nodes place
  | ⟨name, mixed, content, attributes⟩, n, m, hn, h => by
    rw [ComplexType.nodes] at hn ⊢
    rcases List.mem_cons.mp hn with rfl | hn
    · cases h with
      | @content _ p _ hp hm =>
        refine List.mem_cons_of_mem _ ?_
        cases content with
        | particle q =>
          obtain rfl : q = some p := hp
          exact mem_nodes_of_ownNode hm
        | simple method base type => cases hp
        | complex method base q =>
          obtain rfl : q = some p := hp
          exact mem_nodes_of_ownNode hm
    · exact List.mem_cons_of_mem _ (content.part_mem_nodes hn h)

theorem Content.part_mem_nodes {place : Place} : (t : Content) → {n m : Node} →
    n ∈ t.nodes place → n.Part m → m ∈ t.nodes place
  | .particle p, n, m, hn, h => by
    rw [Content.nodes] at hn ⊢
    exact part_mem_nodesInside p hn h
  | .simple _ _ _, _, _, hn, _ => by simp [Content.nodes] at hn
  | .complex _ _ p, n, m, hn, h => by
    rw [Content.nodes] at hn ⊢
    exact part_mem_nodesInside p hn h

theorem part_mem_nodesInside {place : Place} : (p : Option Particle) → {n m : Node} →
    n ∈ nodesInside place p → n.Part m → m ∈ nodesInside place p
  | none, _, _, hn, _ => by simp [nodesInside] at hn
  | some p, n, m, hn, h => by
    rw [nodesInside] at hn ⊢
    exact p.part_mem_nodes hn h

theorem Particle.part_mem_nodes {place : Place} : (p : Particle) → {n m : Node} →
    n ∈ p.nodes place → n.Part m → m ∈ p.nodes place
  | .element _ e, n, m, hn, h => by
    rw [Particle.nodes] at hn ⊢
    exact e.part_mem_nodes hn h
  | .group g, n, m, hn, h => by
    rw [Particle.nodes] at hn ⊢
    exact g.part_mem_nodes hn h
  | .elementRef _ _, _, _, hn, _ => by simp [Particle.nodes] at hn
  | .any _ _, _, _, hn, _ => by simp [Particle.nodes] at hn
  | .groupRef _ _, _, _, hn, _ => by simp [Particle.nodes] at hn

theorem ModelGroup.part_mem_nodes {place : Place} : (g : ModelGroup) → {n m : Node} →
    n ∈ g.nodes place → n.Part m → m ∈ g.nodes place
  | ⟨compositor, occurs, particles⟩, n, m, hn, h => by
    rw [ModelGroup.nodes] at hn ⊢
    rcases List.mem_cons.mp hn with rfl | hn
    · cases h with
      | @particle _ i p _ hp hm =>
        refine List.mem_cons_of_mem _ (mem_nodesFrom_of_getElem? hp (mem_nodes_of_ownNode ?_))
        rwa [Nat.zero_add]
    · exact List.mem_cons_of_mem _ (part_mem_nodesFrom 0 particles hn h)

theorem part_mem_nodesFrom {place : Place} (i : ℕ) : (ps : List Particle) → {n m : Node} →
    n ∈ nodesFrom place i ps → n.Part m → m ∈ nodesFrom place i ps
  | [], _, _, hn, _ => by simp [nodesFrom] at hn
  | p :: ps, n, m, hn, h => by
    rw [nodesFrom, List.mem_append] at hn ⊢
    rcases hn with hn | hn
    · exact .inl (p.part_mem_nodes hn h)
    · exact .inr (part_mem_nodesFrom (i + 1) ps hn h)

end

theorem GroupDefinition.part_mem_nodes {place : Place} (g : GroupDefinition) {n m : Node}
    (hn : n ∈ g.nodes place) (h : n.Part m) : m ∈ g.nodes place := by
  rw [GroupDefinition.nodes] at hn ⊢
  rcases List.mem_cons.mp hn with rfl | hn
  · cases h with
    | @definition _ group hg =>
      rw [hg]
      cases group
      simp [ModelGroup.nodes]
  · refine List.mem_cons_of_mem _ ?_
    cases hg : g.modelGroup with
    | none => simp [hg] at hn
    | some group =>
      rw [hg] at hn
      exact group.part_mem_nodes hn h

/-! ### Induction over the nodes inside a declaration -/

section Induction

variable {P : Node → Prop}

mutual

/-- What holds of an element and is handed on to parts holds of all nodes of the element. -/
theorem Element.forall_nodes (hP : Node.Inherited P) {place : Place} : (e : Element) →
    P (.element ⟨place, e⟩) → ∀ n ∈ e.nodes place, P n
  | ⟨name, nillable, type⟩, h, n, hn => by
    rw [Element.nodes] at hn
    rcases List.mem_cons.mp hn with rfl | hn
    · exact h
    · exact type.forall_nodes hP (fun t ht => hP _ _ h (.type ht)) n hn

theorem ElementType.forall_nodes (hP : Node.Inherited P) {place : Place} : (type : ElementType) →
    (∀ t, type = .complex t → P (.complexType ⟨place, t⟩)) → ∀ n ∈ type.nodes place, P n
  | .complex t, h, n, hn => t.forall_nodes hP (h t rfl) n (by rwa [ElementType.nodes] at hn)
  | .named _, _, _, hn => by simp [ElementType.nodes] at hn
  | .simple _, _, _, hn => by simp [ElementType.nodes] at hn
  | .unspecified, _, _, hn => by simp [ElementType.nodes] at hn

theorem ComplexType.forall_nodes (hP : Node.Inherited P) {place : Place} : (t : ComplexType) →
    P (.complexType ⟨place, t⟩) → ∀ n ∈ t.nodes place, P n
  | ⟨name, mixed, .particle p, attributes⟩, h, n, hn => by
    rw [ComplexType.nodes, Content.nodes] at hn
    rcases List.mem_cons.mp hn with rfl | hn
    · exact h
    · exact forall_nodesInside hP p (fun q m hq hm => hP _ _ h (.content hq hm)) n hn
  | ⟨name, mixed, .simple _ _ _, attributes⟩, h, n, hn => by
    rw [ComplexType.nodes, Content.nodes] at hn
    obtain rfl := List.mem_singleton.mp hn
    exact h
  | ⟨name, mixed, .complex _ _ p, attributes⟩, h, n, hn => by
    rw [ComplexType.nodes, Content.nodes] at hn
    rcases List.mem_cons.mp hn with rfl | hn
    · exact h
    · exact forall_nodesInside hP p (fun q m hq hm => hP _ _ h (.content hq hm)) n hn

theorem forall_nodesInside (hP : Node.Inherited P) {place : Place} : (particle : Option Particle) →
    (∀ p m, particle = some p → ownNode place p = some m → P m) →
    ∀ n ∈ nodesInside place particle, P n
  | none, _, _, hn => by simp [nodesInside] at hn
  | some p, h, n, hn => p.forall_nodes hP (fun m => h p m rfl) n (by rwa [nodesInside] at hn)

theorem Particle.forall_nodes (hP : Node.Inherited P) {place : Place} : (p : Particle) →
    (∀ m, ownNode place p = some m → P m) → ∀ n ∈ p.nodes place, P n
  | .element _ e, h, n, hn => e.forall_nodes hP (h _ rfl) n (by rwa [Particle.nodes] at hn)
  | .group g, h, n, hn => g.forall_nodes hP (h _ rfl) n (by rwa [Particle.nodes] at hn)
  | .elementRef _ _, _, _, hn => by simp [Particle.nodes] at hn
  | .any _ _, _, _, hn => by simp [Particle.nodes] at hn
  | .groupRef _ _, _, _, hn => by simp [Particle.nodes] at hn

theorem ModelGroup.forall_nodes (hP : Node.Inherited P) {place : Place} : (g : ModelGroup) →
    P (.modelGroup ⟨place, g⟩) → ∀ n ∈ g.nodes place, P n
  | ⟨compositor, occurs, particles⟩, h, n, hn => by
    rw [ModelGroup.nodes] at hn
    rcases List.mem_cons.mp hn with rfl | hn
    · exact h
    · refine forall_nodesFrom hP 0 particles (fun j p m hp hm => hP _ _ h (.particle hp ?_)) n hn
      rwa [Nat.zero_add] at hm

theorem forall_nodesFrom (hP : Node.Inherited P) {place : Place} (i : ℕ) :
    (ps : List Particle) →
    (∀ j p m, ps[j]? = some p → ownNode (place.part (i + j)) p = some m → P m) →
    ∀ n ∈ nodesFrom place i ps, P n
  | [], _, _, hn => by simp [nodesFrom] at hn
  | p :: ps, h, n, hn => by
    rw [nodesFrom, List.mem_append] at hn
    rcases hn with hn | hn
    · exact p.forall_nodes hP (fun m hm => h 0 p m (by simp) hm) n hn
    · refine forall_nodesFrom hP (i + 1) ps (fun j q m hq hm => h (j + 1) q m (by simpa) ?_) n hn
      rwa [show i + (j + 1) = i + 1 + j by omega]

end

theorem GroupDefinition.forall_nodes (hP : Node.Inherited P) {place : Place} (g : GroupDefinition)
    (h : P (.group ⟨place, g⟩)) : ∀ n ∈ g.nodes place, P n := by
  intro n hn
  rw [GroupDefinition.nodes] at hn
  rcases List.mem_cons.mp hn with rfl | hn
  · exact h
  · cases hg : g.modelGroup with
    | none => simp [hg] at hn
    | some group =>
      rw [hg] at hn
      exact group.forall_nodes hP (hP _ _ h (.definition hg)) n hn

end Induction

end Schema

end SchemaShapes
