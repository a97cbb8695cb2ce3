import SchemaShapes.Proofs.Catalog.Views
import SchemaShapes.Tree.Conversion

/-! Declarations that a conversion reaches. Elements and definitions of groups are looked at for
cycles before they are written out, and what is written out in between are types and model groups.
Edges of the component graph lead from a declaration to those right inside it, so a declaration that
is not recursive never reaches itself, and one looks only so deep. -/
namespace SchemaShapes

open Relation (ReflTransGen TransGen)
open Schema

/-- What is written out only if it is not made of itself. -/
inductive Declaration where
  | element (e : Located Element)
  | group (d : Located GroupDefinition)

namespace Declaration

def node : Declaration → Catalog.Node
  | .element e => .element e
  | .group d => .group d

def name : Declaration → QName
  | .element e => e.value.name
  | .group d => d.value.name

/-- The declaration that a node is, if it is one. -/
def ofNode : Catalog.Node → Option Declaration
  | .element e => some (.element e)
  | .group d => some (.group d)
  | _ => none

theorem ofNode_node (d : Declaration) : ofNode d.node = some d := by
  cases d <;> rfl

theorem node_of_ofNode {n : Catalog.Node} {d : Declaration} (h : ofNode n = some d) :
    d.node = n := by
  cases n <;> simp only [ofNode, Option.some.injEq, reduceCtorEq] at h
  all_goals subst h; rfl

end Declaration

namespace Catalog

variable {c : Catalog}

/-! ### Declarations inside a declaration -/

mutual

/-- The declarations that a particle at a place leads to, in document order. -/
def declarationsIn (c : Catalog) (place : Place) : Particle → List Declaration
  | .element _ e => [.element ⟨place, e⟩]
  | .elementRef _ q => ((c.findElement q).map .element).toList
  | .any _ _ => []
  | .group ⟨_, _, particles⟩ => c.declarationsFrom place 0 particles
  | .groupRef _ q => ((c.findGroup q).map .group).toList

/-- The declarations that particles of the model group at a place lead to, from the particle that
is counted as the given one. -/
def declarationsFrom (c : Catalog) (place : Place) (i : ℕ) : List Particle → List Declaration
  | [] => []
  | p :: ps => c.declarationsIn (place.part i) p ++ c.declarationsFrom place (i + 1) ps

end

/-- The declarations that the content of a complex type leads to, if it is written out. -/
def declarationsOf (c : Catalog) (t : Located ComplexType) : List Declaration :=
  match c.contentType t with
  | .textOnly => []
  | .unknown => []
  | _ => (c.content t).flatMap fun p => c.declarationsIn p.place p.value

theorem declarationsOf_eq {t : Located ComplexType} (ht : c.contentType t ≠ .textOnly)
    (hu : c.contentType t ≠ .unknown) :
    c.declarationsOf t = (c.content t).flatMap fun p => c.declarationsIn p.place p.value := by
  unfold declarationsOf
  split
  · next h => exact absurd h ht
  · next h => exact absurd h hu
  · rfl

/-- The declarations right inside a declaration, in document order. -/
def inside (c : Catalog) : Declaration → List Declaration
  | .element e =>
    match c.elementType e with
    | .complex t => c.declarationsOf t
    | _ => []
  | .group d =>
    match d.value.modelGroup with
    | some g => c.declarationsFrom (d.place.part 0) 0 g.particles
    | none => []

/-- The conversion of the first declaration goes on to the second. -/
def Enters (c : Catalog) (d d' : Declaration) : Prop :=
  c.isRecursive d.node = false ∧ d' ∈ c.inside d

/-! ### Edges to the declarations inside -/

mutual

theorem path_of_mem_declarationsIn {place : Place} : (p : Particle) → {d : Declaration} →
    d ∈ c.declarationsIn place p →
    ∃ n, c.particleNode place p = some n ∧ ReflTransGen c.Edge n d.node
  | .element _ e, d, h => by
    rw [declarationsIn, List.mem_singleton] at h
    subst h
    exact ⟨_, rfl, .refl⟩
  | .elementRef _ q, d, h => by
    rw [declarationsIn, Option.mem_toList] at h
    obtain ⟨e, he, rfl⟩ := Option.map_eq_some_iff.mp h
    exact ⟨.element e, by rw [particleNode, he, Option.map_some], .refl⟩
  | .any _ _, d, h => by
    rw [declarationsIn] at h
    cases h
  | .group ⟨compositor, occurs, ps⟩, d, h => by
    rw [declarationsIn] at h
    obtain ⟨i, p, n, hp, hn, hpath⟩ := path_of_mem_declarationsFrom 0 ps h
    rw [Nat.zero_add] at hn
    exact ⟨_, rfl, .head (.particle hp hn) hpath⟩
  | .groupRef _ q, d, h => by
    rw [declarationsIn, Option.mem_toList] at h
    obtain ⟨g, hg, rfl⟩ := Option.map_eq_some_iff.mp h
    exact ⟨.group g, by rw [particleNode, hg, Option.map_some], .refl⟩

theorem path_of_mem_declarationsFrom {place : Place} (i : ℕ) : (ps : List Particle) →
    {d : Declaration} → d ∈ c.declarationsFrom place i ps →
    ∃ j p n, ps[j]? = some p ∧ c.particleNode (place.part (i + j)) p = some n ∧
      ReflTransGen c.Edge n d.node
  | [], d, h => by
    rw [declarationsFrom] at h
    cases h
  | p :: ps, d, h => by
    rw [declarationsFrom, List.mem_append] at h
    rcases h with h | h
    · obtain ⟨n, hn, hpath⟩ := path_of_mem_declarationsIn p h
      exact ⟨0, p, n, rfl, hn, hpath⟩
    · obtain ⟨j, p', n, hp, hn, hpath⟩ := path_of_mem_declarationsFrom (i + 1) ps h
      refine ⟨j + 1, p', n, by simpa using hp, ?_, hpath⟩
      rwa [show i + (j + 1) = i + 1 + j by omega]

end

theorem mem_ownContent {t : Located ComplexType} {p : Located Particle} (h : p ∈ ownContent t) :
    t.value.ownParticle = some p.value ∧ p.place = t.place.part 0 := by
  rw [ownContent, Option.mem_toList] at h
  obtain ⟨particle, hp, rfl⟩ := Option.map_eq_some_iff.mp h
  exact ⟨(Option.filter_eq_some_iff.mp hp).1, rfl⟩

/-- The particles of a content belong to the type itself or to types that it is derived from. -/
theorem exists_derived_of_mem_content (h : c.fault = none) (t : Located ComplexType)
    {p : Located Particle} (hp : p ∈ c.content t) :
    ∃ u, ReflTransGen c.DerivesFrom t u ∧ p ∈ ownContent u := by
  induction t using (derivesFrom_wellFounded h).induction with
  | _ t ih =>
    rw [content_eq h] at hp
    split at hp
    · cases hp
    · next base _ hc =>
      rcases List.mem_append.mp hp with hp | hp
      · split at hp
        · next u hu =>
          have htu : c.DerivesFrom t u :=
            ⟨base, (base_of_complex hc).1, namedType_eq_complex_iff.mp hu⟩
          obtain ⟨v, hv, hp⟩ := ih u htu hp
          exact ⟨v, .head htu hv, hp⟩
        · cases hp
      · exact ⟨t, .refl, hp⟩
    · exact ⟨t, .refl, hp⟩

theorem path_of_derivesFrom {t u : Located ComplexType} (h : ReflTransGen c.DerivesFrom t u) :
    ReflTransGen c.Edge (.complexType t) (.complexType u) := by
  induction h with
  | refl => exact .refl
  | tail _ h ih =>
    obtain ⟨q, hq, hu⟩ := h
    exact ih.tail (.base hq hu)

/-- A particle of the content of a type leads where edges lead from the type. -/
theorem path_of_mem_content (h : c.fault = none) {t : Located ComplexType} {p : Located Particle}
    (hp : p ∈ c.content t) {n : Node} (hn : c.particleNode p.place p.value = some n) :
    TransGen c.Edge (.complexType t) n := by
  obtain ⟨u, htu, hpu⟩ := exists_derived_of_mem_content h t hp
  obtain ⟨hparticle, hplace⟩ := mem_ownContent hpu
  rw [hplace] at hn
  exact TransGen.tail' (path_of_derivesFrom htu) (.content hparticle hn)

theorem path_of_mem_declarationsOf (h : c.fault = none) {t : Located ComplexType} {d : Declaration}
    (hd : d ∈ c.declarationsOf t) : TransGen c.Edge (.complexType t) d.node := by
  have hd' : d ∈ (c.content t).flatMap fun p => c.declarationsIn p.place p.value := by
    unfold declarationsOf at hd
    split at hd
    · cases hd
    · cases hd
    · exact hd
  obtain ⟨p, hp, hd⟩ := List.mem_flatMap.mp hd'
  obtain ⟨n, hn, hpath⟩ := path_of_mem_declarationsIn p.value hd
  exact (path_of_mem_content h hp hn).trans_left hpath

/-- Edges of the component graph lead to every declaration inside. -/
theorem path_of_mem_inside (h : c.fault = none) {d d' : Declaration} (hd : d' ∈ c.inside d) :
    TransGen c.Edge d.node d'.node := by
  cases d with
  | element e =>
    rw [inside] at hd
    split at hd
    · next t ht => exact .head (.type ht) (path_of_mem_declarationsOf h hd)
    · cases hd
  | group d =>
    rw [inside] at hd
    split at hd
    · next g hg =>
      obtain ⟨i, p, n, hp, hn, hpath⟩ := path_of_mem_declarationsFrom 0 g.particles hd
      rw [Nat.zero_add] at hn
      exact TransGen.head (.definition hg) (TransGen.head' (.particle hp hn) hpath)
    · cases hd

/-! ### No declaration is entered from itself -/

/-- A declaration that the catalog holds. -/
def Declares (c : Catalog) (d : Declaration) : Prop := d.node ∈ c.nodes

theorem declares_of_mem_inside (h : c.fault = none) {d d' : Declaration} (hd : c.Declares d)
    (hd' : d' ∈ c.inside d) : c.Declares d' :=
  mem_nodes_of_path hd (path_of_mem_inside h hd').to_reflTransGen

theorem path_of_enters (h : c.fault = none) {d d' : Declaration} (hd : TransGen c.Enters d d') :
    TransGen c.Edge d.node d'.node := by
  induction hd with
  | single hd => exact path_of_mem_inside h hd.2
  | tail _ hd ih => exact ih.trans (path_of_mem_inside h hd.2)

theorem not_enters_self (h : c.fault = none) {d : Declaration} (hd : c.Declares d) :
    ¬TransGen c.Enters d d := by
  intro hcycle
  obtain ⟨d', hstep, -⟩ := TransGen.head'_iff.mp hcycle
  have hrec := (isRecursive_iff hd).mpr (path_of_enters h hcycle)
  rw [hstep.1] at hrec
  cases hrec

/-- No more declarations are entered one after the other than there are components. -/
theorem heightLe_enters (h : c.fault = none) {d : Declaration} (hd : c.Declares d) :
    Graph.HeightLe c.Enters c.places.length d := by
  have hmem {d : Declaration} : d ∈ c.nodes.filterMap Declaration.ofNode ↔ c.Declares d := by
    rw [List.mem_filterMap]
    constructor
    · rintro ⟨n, hn, hof⟩
      rwa [Declares, Declaration.node_of_ofNode hof]
    · exact fun hd => ⟨d.node, hd, d.ofNode_node⟩
  have hclosed : ∀ d ∈ c.nodes.filterMap Declaration.ofNode, ∀ d', c.Enters d d' →
      d' ∈ c.nodes.filterMap Declaration.ofNode :=
    fun d hd d' hdd' => hmem.mpr (declares_of_mem_inside h (hmem.mp hd) hdd'.2)
  refine Graph.heightLe_of_acyclic hclosed (fun d hd => not_enters_self h (hmem.mp hd)) ?_
    (hmem.mpr hd)
  rw [places, List.length_map]
  exact List.length_filterMap_le _ _

end Catalog

/-- A garden: a tree has branches that are trees, and a fence is a row of posts that may have a
gate behind it. A second declaration of the tree is never found. -/
def SchemaSet.garden : SchemaSet where
  documents := [⟨none, { Document.empty none with
    elements := [⟨⟨none, "tree"⟩, false, .named ⟨none, "tree"⟩⟩,
      ⟨⟨none, "fence"⟩, false, .named ⟨none, "fence"⟩⟩,
      ⟨⟨none, "post"⟩, true, .named (.xs "string")⟩,
      ⟨⟨none, "tree"⟩, false, .unspecified⟩]
    complexTypes := [⟨some ⟨none, "tree"⟩, false, .particle (some (.group ⟨.sequence, .once,
        [.element .once ⟨⟨none, "leaf"⟩, false, .named (.xs "string")⟩,
          .element .anyNumber ⟨⟨none, "branch"⟩, false, .named ⟨none, "tree"⟩⟩]⟩)), []⟩,
      ⟨some ⟨none, "row"⟩, false, .particle (some (.group ⟨.sequence, .once,
        [.elementRef .once ⟨none, "post"⟩, .any .anyNumber none]⟩)),
        [.declared ⟨⟨none, "height"⟩, .named (.xs "int")⟩ (some .required),
          .group ⟨none, "marks"⟩]⟩,
      ⟨some ⟨none, "fence"⟩, false,
        .complex .extension ⟨none, "row"⟩ (some (.groupRef .optional ⟨none, "gate"⟩)),
        [.declared ⟨⟨none, "height"⟩, .named (.xs "string")⟩ (some .prohibited)]⟩]
    groups := [⟨⟨none, "gate"⟩, some ⟨.choice, .once,
      [.elementRef .once ⟨none, "post"⟩,
        .element .once ⟨⟨none, "hinge"⟩, false, .named (.xs "string")⟩]⟩⟩]
    attributeGroups := [⟨⟨none, "marks"⟩, [.reference ⟨none, "colour"⟩ none]⟩]
    attributes := [⟨⟨none, "colour"⟩, .unspecified⟩] }⟩]
  fault_eq_none := by decide +kernel

/-- The tree of the garden. -/
def SchemaSet.gardenTree : Located Element :=
  ⟨.top (.element 0), ⟨⟨none, "tree"⟩, false, .named ⟨none, "tree"⟩⟩⟩

/-- The fence of the garden. -/
def SchemaSet.gardenFence : Located Element :=
  ⟨.top (.element 1), ⟨⟨none, "fence"⟩, false, .named ⟨none, "fence"⟩⟩⟩

end SchemaShapes
