import SchemaShapes.Proofs.Catalog.Attributes
import SchemaShapes.Proofs.Traversal
import SchemaShapes.Proofs.Tree.Refusal

/-! Trees without gaps. Every name that a component uses is found, so what stands for things that
are not found never comes to pass: a tree has a part for each particle that it is made from, in
document order and with the bounds that are written there, and content is missing from it only where
a complex type has none. -/
namespace SchemaShapes

open Schema
open SchemaShapes.Tree (ConversionError)

/-! ### Trees without empty parts -/

mutual

/-- No group inside an element has an empty part. -/
def Tree.Element.Solid : Tree.Element → Prop
  | ⟨_, type, _⟩ => type.Solid

def Tree.ElementType.Solid : Tree.ElementType → Prop
  | .simple _ => True
  | .complex description => description.Solid

/-- The content of a complex type may be empty as a whole. -/
def Tree.Description.Solid : Tree.Description → Prop
  | ⟨_, .simple _, _⟩ => True
  | ⟨_, .complex particle, _⟩ => particle = .empty ∨ particle.Solid

def Tree.Particle.Solid : Tree.Particle → Prop
  | .empty => False
  | .any _ => True
  | .element _ element => element.Solid
  | .group _ _ children => Tree.allSolid children

def Tree.allSolid : List Tree.Particle → Prop
  | [] => True
  | p :: ps => p.Solid ∧ Tree.allSolid ps

end

theorem Tree.allSolid_iff {ps : List Tree.Particle} : Tree.allSolid ps ↔ ∀ p ∈ ps, p.Solid := by
  induction ps with
  | nil => simp [Tree.allSolid]
  | cons p ps ih => simp [Tree.allSolid, ih]

theorem Tree.Particle.Solid.parts {p : Tree.Particle} (h : p.Solid) : ∀ q ∈ p.parts, q.Solid := by
  intro q hq
  unfold Tree.Particle.parts at hq
  split at hq
  · split_ifs at hq
    · rw [Tree.Particle.Solid] at h
      exact Tree.allSolid_iff.mp h q hq
    · rwa [List.mem_singleton.mp hq]
  · rwa [List.mem_singleton.mp hq]

/-- Replacing sequences by their parts leaves no empty part. -/
theorem Tree.allSolid_parts {ps : List Tree.Particle} (h : Tree.allSolid ps) :
    Tree.allSolid (ps.flatMap Tree.Particle.parts) := by
  rw [Tree.allSolid_iff] at h ⊢
  intro q hq
  obtain ⟨p, hp, hq⟩ := List.mem_flatMap.mp hq
  exact (h p hp).parts q hq

namespace Catalog

variable {c : Catalog}

/-- The particles of the model group at a place with their own places, counted from the given
number on. -/
def particlesAt (place : Place) (i : ℕ) (ps : List Particle) : List (Located Particle) :=
  (ps.zipIdx i).map fun (p, j) => ⟨place.part j, p⟩

/-! ### What stands for what -/

mutual

/-- A tree stands for an element. -/
inductive ElementAs (c : Catalog) : Located Element → Tree.Element → Prop
  | simple {e : Located Element} {code : TypeCode} (ht : c.elementType e = .simple code) :
    ElementAs c e ⟨e.value.name, .simple code, e.value.nillable⟩
  | complex {e : Located Element} {t : Located ComplexType} {contents : Tree.Contents}
    (ht : c.elementType e = .complex t) (h : ContentsAs c t contents) :
    ElementAs c e
      ⟨e.value.name, .complex ⟨c.convertAttributes t, contents, t.value.mixed⟩, e.value.nillable⟩

/-- What stands for the content of a complex type: its text, nothing if it has no particles, what
stands for its particle if it has one, and else a sequence. In that sequence, sequences that occur
once are replaced by their parts. -/
inductive ContentsAs (c : Catalog) : Located ComplexType → Tree.Contents → Prop
  | text {t : Located ComplexType} (ht : c.contentType t = .textOnly) :
    ContentsAs c t (.simple (c.textCode t))
  | empty {t : Located ComplexType} (ht : c.contentType t ≠ .textOnly)
    (hu : c.contentType t ≠ .unknown) (hc : c.content t = []) : ContentsAs c t (.complex .empty)
  | single {t : Located ComplexType} {p : Located Particle} {tree : Tree.Particle}
    (ht : c.contentType t ≠ .textOnly) (hu : c.contentType t ≠ .unknown) (hc : c.content t = [p])
    (h : ParticleAs c p tree) : ContentsAs c t (.complex tree)
  | several {t : Located ComplexType} {trees : List Tree.Particle}
    (ht : c.contentType t ≠ .textOnly) (hu : c.contentType t ≠ .unknown)
    (hc : 2 ≤ (c.content t).length) (h : ParticlesAs c (c.content t) trees) :
    ContentsAs c t (.complex (.group .sequence .once (trees.flatMap Tree.Particle.parts)))

/-- What stands for a particle. A reference is to something that is there, and what stands for it
has the bounds of the reference. -/
inductive ParticleAs (c : Catalog) : Located Particle → Tree.Particle → Prop
  | any {place : Place} {occurs : Occurs} {ns : Option String} :
    ParticleAs c ⟨place, .any occurs ns⟩ (.any occurs)
  | element {place : Place} {occurs : Occurs} {e : Element} {tree : Tree.Element}
    (h : ElementAs c ⟨place, e⟩ tree) :
    ParticleAs c ⟨place, .element occurs e⟩ (.element occurs tree)
  | elementRef {place : Place} {occurs : Occurs} {q : QName} {e : Located Element}
    {tree : Tree.Element} (he : c.findElement q = some e) (h : ElementAs c e tree) :
    ParticleAs c ⟨place, .elementRef occurs q⟩ (.element occurs tree)
  | group {place : Place} {compositor : Compositor} {occurs : Occurs} {ps : List Particle}
    {trees : List Tree.Particle} (h : ParticlesAs c (particlesAt place 0 ps) trees) :
    ParticleAs c ⟨place, .group ⟨compositor, occurs, ps⟩⟩ (.group compositor occurs trees)
  | groupRef {place : Place} {occurs : Occurs} {q : QName} {d : Located GroupDefinition}
    {g : ModelGroup} {trees : List Tree.Particle} (hd : c.findGroup q = some d)
    (hg : d.value.modelGroup = some g)
    (h : ParticlesAs c (particlesAt (d.place.part 0) 0 g.particles) trees) :
    ParticleAs c ⟨place, .groupRef occurs q⟩ (.group g.compositor occurs trees)

/-- What stands for particles, for one after the other. -/
inductive ParticlesAs (c : Catalog) : List (Located Particle) → List Tree.Particle → Prop
  | nil : ParticlesAs c [] []
  | cons {p : Located Particle} {ps : List (Located Particle)} {tree : Tree.Particle}
    {trees : List Tree.Particle} (h : ParticleAs c p tree) (hs : ParticlesAs c ps trees) :
    ParticlesAs c (p :: ps) (tree :: trees)

end

mutual

theorem ElementAs.solid {e : Located Element} {tree : Tree.Element} :
    c.ElementAs e tree → tree.Solid
  | .simple _ => trivial
  | .complex _ h => h.solid _ _

theorem ContentsAs.solid {t : Located ComplexType} {contents : Tree.Contents} :
    c.ContentsAs t contents → ∀ attributes mixed,
    Tree.Description.Solid ⟨attributes, contents, mixed⟩
  | .text _, _, _ => trivial
  | .empty _ _ _, _, _ => .inl rfl
  | .single _ _ _ h, _, _ => .inr h.solid
  | .several _ _ _ h, _, _ => .inr (Tree.allSolid_parts h.solid)

theorem ParticleAs.solid {p : Located Particle} {tree : Tree.Particle} :
    c.ParticleAs p tree → tree.Solid
  | .any => trivial
  | .element h => h.solid
  | .elementRef _ h => h.solid
  | .group h => h.solid
  | .groupRef _ _ h => h.solid

theorem ParticlesAs.solid {ps : List (Located Particle)} {trees : List Tree.Particle} :
    c.ParticlesAs ps trees → Tree.allSolid trees
  | .nil => trivial
  | .cons h hs => ⟨h.solid, hs.solid⟩

end

/-! ### What is written out stands for what it is made from -/

/-- What is written out for a declaration stands for it. -/
def Faithful (c : Catalog) : Declaration → Prop
  | .element e => ∀ tree, c.elementTree e = .ok tree → c.ElementAs e tree
  | .group d => ∀ occurs tree, c.groupTree occurs d = .ok tree → ∃ g trees,
    d.value.modelGroup = some g ∧ tree = .group g.compositor occurs trees ∧
    c.ParticlesAs (particlesAt (d.place.part 0) 0 g.particles) trees

/-- A list was written out entry by entry. -/
theorem ok_of_cons {α : Type} {x : Converted α} {xs : Converted (List α)} {all : List α}
    (h : (do
      let first ← x
      let rest ← xs
      return first :: rest) = .ok all) :
    ∃ first rest, x = .ok first ∧ xs = .ok rest ∧ first :: rest = all := by
  cases x with
  | error e => cases h
  | ok first =>
    cases xs with
    | error e => cases h
    | ok rest => exact ⟨first, rest, rfl, rfl, Except.ok.inj h⟩

mutual

theorem particleAs_of_ok (hf : c.fault = none) {place : Place} : (p : Particle) →
    {tree : Tree.Particle} → c.Holds (.particle p) →
    (∀ d ∈ c.declarationsIn place p, c.Faithful d) →
    c.convertParticle c.conversion place p = .ok tree → c.ParticleAs ⟨place, p⟩ tree
  | .any occurs ns, tree, _, _, h => by
    rw [convertParticle] at h
    cases h
    exact .any
  | .element occurs e, tree, _, hd, h => by
    rw [convertParticle] at h
    obtain ⟨element, helement, rfl⟩ := exists_of_map_eq_ok h
    exact .element (hd (.element ⟨place, e⟩) (by simp [declarationsIn]) element helement)
  | .elementRef occurs q, tree, hp, hd, h => by
    have hres : (c.findElement q).isSome := hp.resolves hf .elementRef
    obtain ⟨e, he⟩ := Option.isSome_iff_exists.mp hres
    rw [convertParticle, he] at h
    obtain ⟨element, helement, rfl⟩ := exists_of_map_eq_ok h
    exact .elementRef he (hd (.element e) (by simp [declarationsIn, he]) element helement)
  | .group ⟨compositor, occurs, ps⟩, tree, hp, hd, h => by
    rw [convertParticle] at h
    obtain ⟨trees, htrees, rfl⟩ := exists_of_map_eq_ok h
    have hg : c.Holds (.modelGroup ⟨compositor, occurs, ps⟩) := .part hp .nested
    exact .group (particlesAs_of_ok hf place 0 ps (fun q hq => .part hg (.particleOfGroup hq))
      (by rwa [declarationsIn] at hd) htrees)
  | .groupRef occurs q, tree, hp, hd, h => by
    have hres : (c.findGroup q).isSome := hp.resolves hf .groupRef
    obtain ⟨d, hq⟩ := Option.isSome_iff_exists.mp hres
    rw [convertParticle, hq] at h
    obtain ⟨g, trees, hg, rfl, htrees⟩ :=
      hd (.group d) (by simp [declarationsIn, hq]) occurs tree h
    exact .groupRef hq hg htrees

theorem particlesAs_of_ok (hf : c.fault = none) (place : Place) (i : ℕ) : (ps : List Particle) →
    {trees : List Tree.Particle} → (∀ p ∈ ps, c.Holds (.particle p)) →
    (∀ d ∈ c.declarationsFrom place i ps, c.Faithful d) →
    c.convertParticles c.conversion place i ps = .ok trees →
    c.ParticlesAs (particlesAt place i ps) trees
  | [], trees, _, _, h => by
    rw [convertParticles] at h
    cases h
    exact .nil
  | p :: ps, trees, hp, hd, h => by
    simp only [declarationsFrom, List.mem_append] at hd
    rw [convertParticles] at h
    obtain ⟨first, rest, hfirst, hrest, rfl⟩ := ok_of_cons h
    exact .cons (particleAs_of_ok hf p (hp p (by simp)) (fun d hd' => hd d (.inl hd')) hfirst)
      (particlesAs_of_ok hf place (i + 1) ps (fun q hq => hp q (by simp [hq]))
        (fun d hd' => hd d (.inr hd')) hrest)

end

theorem particlesAs_of_mapM {ps : List (Located Particle)} {trees : List Tree.Particle}
    (hp : ∀ p ∈ ps, ∀ tree, c.particleTree p = .ok tree → c.ParticleAs p tree)
    (h : ps.mapM c.particleTree = .ok trees) : c.ParticlesAs ps trees := by
  induction ps generalizing trees with
  | nil =>
    cases h
    exact .nil
  | cons p ps ih =>
    rw [List.mapM_cons] at h
    obtain ⟨first, rest, hfirst, hrest, rfl⟩ := ok_of_cons h
    exact .cons (hp p (by simp) first hfirst) (ih (fun q hq => hp q (by simp [hq])) hrest)

/-- The particles of the content of a type are particles of types that the catalog holds. -/
theorem holds_of_mem_content (hf : c.fault = none) {t : Located ComplexType}
    (ht : .complexType t ∈ c.nodes) {p : Located Particle} (hp : p ∈ c.content t) :
    c.Holds (.particle p.value) := by
  obtain ⟨u, htu, hpu⟩ := exists_derived_of_mem_content hf t hp
  have hu : c.Holds (.complexType u.value) :=
    holds_of_mem_nodes (mem_nodes_of_path ht (path_of_derivesFrom htu))
  exact .part hu (.particleOfType (mem_ownContent hpu).1)

/-- What a particle leads to is a component of the catalog. -/
def LeadsInside (c : Catalog) (p : Located Particle) : Prop :=
  ∀ n, c.particleNode p.place p.value = some n → n ∈ c.nodes

theorem leadsInside_of_mem_content (hf : c.fault = none) {t : Located ComplexType}
    (ht : .complexType t ∈ c.nodes) : ∀ p ∈ c.content t, c.LeadsInside p :=
  fun _ hp _ hn => mem_nodes_of_path ht (path_of_mem_content hf hp hn).to_reflTransGen

theorem leadsInside_of_mem_particlesAt {g : Located ModelGroup} (hg : .modelGroup g ∈ c.nodes) :
    ∀ p ∈ particlesAt g.place 0 g.value.particles, c.LeadsInside p := by
  intro p hp n hn
  obtain ⟨⟨q, i⟩, hq, rfl⟩ := List.mem_map.mp hp
  exact mem_nodes_of_edge hg (.particle (List.mem_zipIdx_iff_getElem?.mp hq) hn)

theorem contentsAs_of_ok (hf : c.fault = none) {t : Located ComplexType}
    (ht : .complexType t ∈ c.nodes) (hd : ∀ d ∈ c.declarationsOf t, c.Faithful d)
    {contents : Tree.Contents} (h : c.convertContents c.conversion t = .ok contents) :
    c.ContentsAs t contents := by
  have hparticle : c.contentType t ≠ .textOnly → c.contentType t ≠ .unknown →
      ∀ p ∈ c.content t, ∀ tree, c.particleTree p = .ok tree → c.ParticleAs p tree := by
    intro htext hunknown p hp tree htree
    refine particleAs_of_ok hf p.value (holds_of_mem_content hf ht hp) (fun d hd' => hd d ?_) htree
    rw [declarationsOf_eq htext hunknown]
    exact List.mem_flatMap.mpr ⟨p, hp, hd'⟩
  rw [convertContents] at h
  split at h
  · next htext =>
    cases h
    exact .text htext
  · cases h
  · next htext hunknown =>
    obtain ⟨tree, htree, rfl⟩ := exists_of_map_eq_ok h
    have hp := hparticle htext hunknown
    rcases hc : c.content t with _ | ⟨p, _ | ⟨q, ps⟩⟩
    · rw [hc, convertContent] at htree
      cases htree
      exact .empty htext hunknown hc
    · rw [hc, convertContent] at htree
      exact .single htext hunknown hc (hp p (by simp [hc]) tree htree)
    · rw [hc] at htree
      obtain ⟨trees, htrees, rfl⟩ := exists_of_map_eq_ok (contentTree_several.symm.trans htree)
      rw [← hc] at htrees
      exact .several htext hunknown (by simp [hc]) (particlesAs_of_mapM hp htrees)

/-- What is written out for any declaration of a catalog stands for it. -/
theorem faithful (hf : c.fault = none) {d : Declaration} (hd : c.Declares d) : c.Faithful d := by
  induction (heightLe_enters hf hd).acc with
  | intro d _ ih =>
    have hinside : c.isRecursive d.node = false → ∀ d' ∈ c.inside d, c.Faithful d' :=
      fun hr d' hd' => ih d' ⟨hr, hd'⟩ (declares_of_mem_inside hf hd hd')
    cases d with
    | element e =>
      intro tree h
      rw [elementTree_eq hf hd] at h
      split_ifs at h with hr
      cases ht : c.elementType e with
      | simple code =>
        rw [ht] at h
        cases h
        exact .simple ht
      | unknown =>
        rw [ht] at h
        cases h
      | complex t =>
        rw [ht] at h
        obtain ⟨description, hdescription, rfl⟩ := exists_of_map_eq_ok h
        obtain ⟨contents, hcontents, rfl⟩ := exists_of_map_eq_ok hdescription
        refine .complex ht (contentsAs_of_ok hf (mem_nodes_of_edge hd (.type ht))
          (fun d' hd' => hinside (Bool.eq_false_iff.mpr hr) d' ?_) hcontents)
        rwa [inside, ht]
    | group d =>
      intro occurs tree h
      rw [groupTree_eq hf hd] at h
      split_ifs at h with hr
      cases hg : d.value.modelGroup with
      | none =>
        rw [hg] at h
        cases h
      | some g =>
        rw [hg] at h
        obtain ⟨trees, htrees, rfl⟩ := exists_of_map_eq_ok h
        have hheld : c.Holds (.modelGroup g) := .part (holds_of_mem_nodes hd) (.definition hg)
        refine ⟨g, trees, rfl, rfl, particlesAs_of_ok hf _ 0 g.particles
          (fun p hp => .part hheld (.particleOfGroup hp))
          (fun d' hd' => hinside (Bool.eq_false_iff.mpr hr) d' ?_) htrees⟩
        rwa [inside, hg]

/-! ### Types of elements -/

theorem elementType_ne_unknown (hf : c.fault = none) {e : Located Element}
    (he : .element e ∈ c.nodes) : c.elementType e ≠ .unknown := by
  intro hunknown
  unfold elementType at hunknown
  split at hunknown
  · next q hq =>
    have hres : c.namedType q ≠ .unknown := (holds_of_mem_nodes he).resolves hf (.typeOfElement hq)
    exact hres hunknown
  · cases hunknown
  · cases hunknown
  · cases hunknown

/-- A conversion stops because of the type of an element only where that is unknown. -/
theorem elementType_of_stop {d : Declaration} {q : QName}
    (h : c.stop d = some (.unknownTypeShape (.element q))) :
    ∃ e, d = .element e ∧ c.elementType e = .unknown := by
  unfold stop at h
  split_ifs at h
  · cases h
  · cases d with
    | element e =>
      refine ⟨e, rfl, ?_⟩
      rw [shapeFault] at h
      split at h
      · cases h
      · split_ifs at h
        cases h
      · next hunknown => exact hunknown
    | group d =>
      rw [shapeFault] at h
      split at h <;> cases h

/-- No conversion fails because of the type of an element. -/
theorem elementTree_ne_unknownTypeShape (hf : c.fault = none) {e : Located Element}
    (he : .element e ∈ c.nodes) (q : QName) :
    c.elementTree e ≠ .error (.unknownTypeShape (.element q)) := by
  intro herror
  have hd : c.Declares (.element e) := he
  have hfailure : c.conversion.failure (.element e) = some (.unknownTypeShape (.element q)) := by
    show failure (c.elementTree e) = _
    rw [herror]
    rfl
  obtain ⟨way, m, hfirst⟩ := (firstStop_of_failure hf hd).1 _ hfailure
  obtain ⟨e', rfl, hunknown⟩ := elementType_of_stop hfirst.stops
  exact elementType_ne_unknown hf (declares_of_reaches hf hd hfirst.reaches) hunknown

end Catalog

namespace SchemaSet

/-- In a schema set nothing is left out because a name is not found. All names that components use
are found, at any depth; no conversion fails because of the type of an element; a tree stands for
its element particle by particle, without empty parts in groups; and a complex type has each use
that its base, its items and their groups bring, unless a later one is of the same attribute. -/
theorem nothing_dropped (s : SchemaSet) :
    (∀ n ∈ s.nodes, s.Holds n.component) ∧
    (∀ x r, s.Holds x → x.Uses r → s.Resolves r) ∧
    (∀ e, .element e ∈ s.nodes →
      (∀ q, s.elementTree e ≠ .error (.unknownTypeShape (.element q))) ∧
      ∀ tree, s.elementTree e = .ok tree → s.ElementAs e tree ∧ tree.Solid) ∧
    ∀ t, .complexType t ∈ s.nodes → ∃ uses, s.TypeBrings t uses ∧
      ∀ u, u ∈ s.attributeUses t ↔
        ∃ before after, uses = before ++ u :: after ∧ ∀ v ∈ after, v.name ≠ u.name := by
  have hf := s.fault_eq_none
  refine ⟨fun n hn => Catalog.holds_of_mem_nodes hn, fun x r hx hr => hx.resolves hf hr,
    fun e he => ⟨?_, fun tree htree => ?_⟩, fun t ht => ?_⟩
  · exact Catalog.elementTree_ne_unknownTypeShape hf he
  · have has : s.ElementAs e tree := Catalog.faithful hf (d := .element e) he tree htree
    exact ⟨has, has.solid⟩
  · obtain ⟨uses, hbrings, heq⟩ := Catalog.exists_typeBrings hf ht
    refine ⟨uses, hbrings, fun u => ?_⟩
    rw [heq]
    exact Keyed.mem_ofList

theorem nothing_dropped_fence : .element gardenFence ∈ garden.nodes ∧
    garden.Resolves ⟨.type, ⟨none, "fence"⟩⟩ ∧
    (∃ tree, garden.elementTree gardenFence = .ok tree ∧ garden.ElementAs gardenFence tree ∧
      tree.Solid) ∧
    ∃ t, garden.elementType gardenFence = .complex t ∧ ∃ uses, garden.TypeBrings t uses ∧
      ∀ u, u ∈ garden.attributeUses t ↔
        ∃ before after, uses = before ++ u :: after ∧ ∀ v ∈ after, v.name ≠ u.name := by
  have hmem : .element gardenFence ∈ garden.nodes := Catalog.mem_nodes_of_topLevel (.element rfl)
  obtain ⟨hheld, hresolves, htrees, huses⟩ := nothing_dropped garden
  have hfailure : failure (garden.elementTree gardenFence) = none := by decide +kernel
  obtain ⟨tree, htree⟩ := exists_ok_of_failure hfailure
  refine ⟨hmem, hresolves _ _ (hheld _ hmem) (.typeOfElement rfl),
    ⟨tree, htree, (htrees _ hmem).2 tree htree⟩, ?_⟩
  have htype : garden.elementType gardenFence = .complex _ := rfl
  exact ⟨_, htype, huses _ (Catalog.mem_nodes_of_edge hmem (.type htype))⟩

end SchemaSet

end SchemaShapes
