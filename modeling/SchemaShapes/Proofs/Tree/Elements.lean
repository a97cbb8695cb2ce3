import SchemaShapes.Proofs.Shape.Soundness
import SchemaShapes.Proofs.Tree.Faithful

/-! The elements within a tree. Each of them, at any depth, is written out from an element of the
catalog: one that is declared where it stands, or at the top level for a reference. -/
namespace SchemaShapes

open Schema
open SchemaShapes.Tree (Within)

theorem Tree.Within.trans {p q r : Tree.Particle} (h : Within p q) (h' : Within q r) :
    Within p r := by
  induction h' with
  | here => exact h
  | child hq _ ih => exact .child hq ih
  | content _ ih => exact .content ih

namespace Catalog

variable {c : Catalog}

/-- A tree stands for an element of the catalog. -/
def StandsFor (c : Catalog) (f : Tree.Element) : Prop :=
  ∃ e, .element e ∈ c.nodes ∧ c.ElementAs e f

/-- It is so for all elements within a particle. -/
def AllStand (c : Catalog) (p : Tree.Particle) : Prop :=
  ∀ occurs f, Within (.element occurs f) p → c.StandsFor f

theorem allStand_group {k : Compositor} {occurs : Occurs} {children : List Tree.Particle} :
    c.AllStand (.group k occurs children) ↔ ∀ p ∈ children, c.AllStand p := by
  constructor
  · exact fun h p hp bounds f hf => h bounds f (.child hp hf)
  · intro h bounds f hf
    cases hf with
    | child hp hf => exact h _ hp bounds f hf

theorem AllStand.parts {p : Tree.Particle} (h : c.AllStand p) : ∀ q ∈ p.parts, c.AllStand q := by
  intro q hq
  unfold Tree.Particle.parts at hq
  split at hq
  · split_ifs at hq
    · exact allStand_group.mp h q hq
    · rwa [List.mem_singleton.mp hq]
  · rwa [List.mem_singleton.mp hq]

mutual

/-- Whatever stands for an element of the catalog has only such elements within. -/
theorem ElementAs.allStand (hf : c.fault = none) {e : Located Element} {tree : Tree.Element} :
    c.ElementAs e tree → .element e ∈ c.nodes → ∀ occurs, c.AllStand (.element occurs tree)
  | .simple ht, he, _ => by
    intro bounds f hw
    cases hw
    exact ⟨e, he, .simple ht⟩
  | .complex ht h, he, _ => by
    have hcontents := ContentsAs.allStand hf h (mem_nodes_of_edge he (.type ht))
    intro bounds f hw
    cases hw with
    | here => exact ⟨e, he, .complex ht h⟩
    | content hw => exact hcontents _ rfl bounds f hw

theorem ContentsAs.allStand (hf : c.fault = none) {t : Located ComplexType}
    {contents : Tree.Contents} : c.ContentsAs t contents → .complexType t ∈ c.nodes →
    ∀ p, contents = .complex p → c.AllStand p
  | .text _, _, p, hp => by cases hp
  | .empty _ _ _, _, p, hp => by
    cases hp
    intro bounds f hw
    cases hw
  | .single _ _ hc h, ht, p, hp => by
    have hparticle := ParticleAs.allStand hf h
      (leadsInside_of_mem_content hf ht _ (by simp [hc]))
    exact Tree.Contents.complex.inj hp ▸ hparticle
  | .several _ _ hc h, ht, p, hp => by
    have hparts := ParticlesAs.allStand hf h (leadsInside_of_mem_content hf ht)
    rw [← Tree.Contents.complex.inj hp]
    refine allStand_group.mpr fun q hq => ?_
    obtain ⟨tree, htree, hq⟩ := List.mem_flatMap.mp hq
    exact (hparts tree htree).parts q hq

theorem ParticleAs.allStand (hf : c.fault = none) {p : Located Particle} {tree : Tree.Particle} :
    c.ParticleAs p tree → c.LeadsInside p → c.AllStand tree
  | .any, _ => by
    intro bounds f hw
    cases hw
  | .element h, hp => h.allStand hf (hp _ rfl) _
  | .elementRef he h, _ => h.allStand hf (mem_nodes_of_topLevel (topLevel_of_findElement he)) _
  | .group h, hp =>
    allStand_group.mpr (h.allStand hf (leadsInside_of_mem_particlesAt (hp _ rfl)))
  | .groupRef hd hg h, _ => by
    have hnode := mem_nodes_of_topLevel (topLevel_of_findGroup hd)
    exact allStand_group.mpr (ParticlesAs.allStand hf h
      (leadsInside_of_mem_particlesAt (mem_nodes_of_edge hnode (.definition hg))))

theorem ParticlesAs.allStand (hf : c.fault = none) {ps : List (Located Particle)}
    {trees : List Tree.Particle} : c.ParticlesAs ps trees → (∀ p ∈ ps, c.LeadsInside p) →
    ∀ tree ∈ trees, c.AllStand tree
  | .nil, _, tree, htree => by cases htree
  | .cons h hs, hp, tree, htree => by
    have hfirst := ParticleAs.allStand hf h (hp _ List.mem_cons_self)
    have hrest := ParticlesAs.allStand hf hs fun q hq => hp q (List.mem_cons_of_mem _ hq)
    rcases List.mem_cons.mp htree with rfl | htree
    · exact hfirst
    · exact hrest tree htree

end

theorem ElementAs.name_eq {e : Located Element} {f : Tree.Element} (h : c.ElementAs e f) :
    f.name = e.value.name := by
  cases h <;> rfl

/-! ### What is written out -/

/-- The particles that are written out for the components of a catalog: for its elements, for the
content of its complex types, for its model groups and for references to its groups. -/
inductive Yields (c : Catalog) : Tree.Particle → Prop
  | element {e : Located Element} {occurs : Occurs} {tree : Tree.Element}
    (he : .element e ∈ c.nodes) (h : c.elementTree e = .ok tree) : Yields c (.element occurs tree)
  | complexType {t : Located ComplexType} {description : Tree.Description} {tree : Tree.Particle}
    (ht : .complexType t ∈ c.nodes) (h : c.complexTypeTree t = .ok description)
    (hc : description.contents = .complex tree) : Yields c tree
  | modelGroup {g : Located ModelGroup} {tree : Tree.Particle} (hg : .modelGroup g ∈ c.nodes)
    (h : c.particleTree ⟨g.place, .group g.value⟩ = .ok tree) : Yields c tree
  | group {d : Located GroupDefinition} {occurs : Occurs} {tree : Tree.Particle}
    (hd : .group d ∈ c.nodes) (h : c.groupTree occurs d = .ok tree) : Yields c tree

theorem declares_of_mem_declarationsOf (hf : c.fault = none) {t : Located ComplexType}
    (ht : .complexType t ∈ c.nodes) {d : Declaration} (hd : d ∈ c.declarationsOf t) :
    c.Declares d :=
  mem_nodes_of_path ht (path_of_mem_declarationsOf hf hd).to_reflTransGen

theorem declares_of_mem_declarationsFrom {g : Located ModelGroup} (hg : .modelGroup g ∈ c.nodes)
    {d : Declaration} (hd : d ∈ c.declarationsFrom g.place 0 g.value.particles) :
    c.Declares d := by
  obtain ⟨i, p, n, hp, hn, hpath⟩ := path_of_mem_declarationsFrom 0 g.value.particles hd
  rw [Nat.zero_add] at hn
  exact mem_nodes_of_path hg (.head (.particle hp hn) hpath)

/-- The particles that are written out for the model group of a place stand for its particles. -/
theorem particlesAs_of_modelGroup (hf : c.fault = none) {g : Located ModelGroup}
    (hg : .modelGroup g ∈ c.nodes) {trees : List Tree.Particle}
    (h : c.convertParticles c.conversion g.place 0 g.value.particles = .ok trees) :
    c.ParticlesAs (particlesAt g.place 0 g.value.particles) trees :=
  particlesAs_of_ok hf g.place 0 g.value.particles
    (fun _ hp => .part (holds_of_mem_nodes hg) (.particleOfGroup hp))
    (fun _ hd => faithful hf (declares_of_mem_declarationsFrom hg hd)) h

theorem contentsAs_of_complexType (hf : c.fault = none) {t : Located ComplexType}
    (ht : .complexType t ∈ c.nodes) {description : Tree.Description}
    (h : c.complexTypeTree t = .ok description) : c.ContentsAs t description.contents := by
  obtain ⟨contents, hcontents, rfl⟩ := exists_of_map_eq_ok h
  exact contentsAs_of_ok hf ht
    (fun d hd => faithful hf (declares_of_mem_declarationsOf hf ht hd)) hcontents

/-- All elements within what is written out are written out from elements of the catalog. -/
theorem Yields.allStand (hf : c.fault = none) {p : Tree.Particle} (h : c.Yields p) :
    c.AllStand p := by
  cases h with
  | element he h => exact (faithful hf (d := .element _) he _ h).allStand hf he _
  | complexType ht h hc => exact (contentsAs_of_complexType hf ht h).allStand hf ht p hc
  | @modelGroup g _ hg h =>
    obtain ⟨place, compositor, occurs, ps⟩ := g
    rw [particleTree, convertParticle] at h
    obtain ⟨trees, htrees, rfl⟩ := exists_of_map_eq_ok h
    exact allStand_group.mpr ((particlesAs_of_modelGroup hf hg htrees).allStand hf
      (leadsInside_of_mem_particlesAt hg))
  | group hd h =>
    obtain ⟨g, trees, hg, rfl, has⟩ := faithful hf (d := .group _) hd _ _ h
    have hnode := mem_nodes_of_edge hd (.definition hg)
    exact allStand_group.mpr (has.allStand hf (leadsInside_of_mem_particlesAt hnode))

end Catalog

end SchemaShapes
