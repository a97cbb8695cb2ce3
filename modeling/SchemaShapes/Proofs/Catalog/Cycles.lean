import SchemaShapes.Proofs.Catalog.Recursion
import SchemaShapes.Proofs.Graph.Search
import SchemaShapes.SchemaSet.Basic

/-! Cycles of components. A component is looked for among all that it is made of by a search that
has no bound of its own. The search ends in every schema set, whatever cycles there are, and finds
the component exactly if it lies on one; components that are merely alike are not taken for it. -/
namespace SchemaShapes

open SchemaShapes.Graph (Search)
open Relation (ReflTransGen TransGen)
open Schema

namespace Catalog

variable {c : Catalog} {n : Node}

/-- A step of the search for a component among all that it is made of. -/
def SearchStep (c : Catalog) (n : Node) : Search Node Place → Search Node Place → Prop :=
  Search.Step Node.place c.successors n

/-- The search begins with what the component is made of directly. -/
def searchStart (c : Catalog) (n : Node) : Search Node Place := .start c.successors n

/-- The outcome of the search, once it is over. -/
def SearchAnswers (n : Node) : Search Node Place → Bool → Prop := Search.Answers Node.place n

theorem acc_searchStart (hn : n ∈ c.nodes) :
    Acc (fun t s => c.SearchStep n s t) (c.searchStart n) := by
  refine Search.acc_of_forall_pending mem_nodes_of_mem_successors place_mem_places fun m hm => ?_
  exact mem_nodes_of_mem_successors n hn m (List.mem_reverse.mp hm)

/-- The search visits no component twice, and however it ends, it tells whether the component is
recursive. -/
theorem of_search (hn : n ∈ c.nodes) {s : Search Node Place}
    (hrun : ReflTransGen (c.SearchStep n) (c.searchStart n) s) :
    s.visited.Nodup ∧ ∀ found, SearchAnswers n s found → found = c.isRecursive n := by
  have hplace : ∀ a b, a ∈ c.nodes → b ∈ c.nodes → a.place = b.place → a = b :=
    fun _ _ ha hb => eq_of_place ha hb
  refine ⟨(Search.covers_of_run mem_nodes_of_mem_successors hplace hn hrun).1.nodup,
    fun found hfound => Bool.eq_iff_iff.mpr ?_⟩
  have hedge : (fun a b => b ∈ c.successors a) = c.Edge :=
    funext₂ fun _ _ => propext mem_successors_iff
  rw [isRecursive_iff hn, ← hedge]
  exact Search.answers_iff mem_nodes_of_mem_successors hplace hn hrun hfound

end Catalog

namespace SchemaSet

/-- A component of a schema set is recursive exactly if edges of the component graph lead from it
back to it, where a component is the one that stands at its place and no other one, however alike.
The search for it is never endless, since it visits no component twice, and its end says just
that. -/
theorem recursive_iff_cycle (s : SchemaSet) {n : Catalog.Node} (hn : n ∈ s.nodes) :
    (s.isRecursive n = true ↔ TransGen s.Edge n n) ∧
    (∀ m ∈ s.nodes, m.place = n.place ↔ m = n) ∧
    Acc (fun u t => s.SearchStep n t u) (s.searchStart n) ∧
    (∃ last, ReflTransGen (s.SearchStep n) (s.searchStart n) last ∧
      Catalog.SearchAnswers n last (s.isRecursive n)) ∧
    ∀ t, ReflTransGen (s.SearchStep n) (s.searchStart n) t → t.visited.Nodup ∧
      ∀ found, Catalog.SearchAnswers n t found → found = s.isRecursive n := by
  have hacc := Catalog.acc_searchStart hn
  refine ⟨Catalog.isRecursive_iff hn, fun m hm => ⟨Catalog.eq_of_place hm hn, ?_⟩, hacc, ?_,
    fun t ht => Catalog.of_search hn ht⟩
  · rintro rfl
    rfl
  · obtain ⟨last, found, hrun, hfound⟩ := Search.exists_answers_of_acc hacc
    obtain rfl := (Catalog.of_search hn hrun).2 found hfound
    exact ⟨last, hrun, hfound⟩

/-- A box may hold a box. -/
def box : Schema.Element := ⟨⟨none, "box"⟩, false, .named ⟨none, "Box"⟩⟩

/-- The type of boxes. -/
def boxType : Located ComplexType :=
  ⟨.top (.complexType 0), ⟨some ⟨none, "Box"⟩, false,
    .particle (some (.group ⟨.sequence, .once, [.element .optional box]⟩)), []⟩⟩

/-- A shelf holds a box that is declared like the one inside a box, but at another place. -/
def storage : SchemaSet where
  documents := [⟨none, { Document.empty none with
    elements := [⟨⟨none, "shelf"⟩, false, .complex ⟨none, false,
      .particle (some (.group ⟨.sequence, .once, [.element .once box]⟩)), []⟩⟩]
    complexTypes := [boxType.value] }⟩]
  fault_eq_none := by decide +kernel

/-- The box on the shelf. -/
def outerBox : Located Element := ⟨⟨.element 0, [0, 0, 0]⟩, box⟩

/-- The box in a box. -/
def innerBox : Located Element := ⟨⟨.complexType 0, [0, 0]⟩, box⟩

/-- Only the box in a box is made of itself, though the box on the shelf has the same content. -/
theorem recursive_iff_cycle_storage :
    .element outerBox ∈ storage.nodes ∧ .element innerBox ∈ storage.nodes ∧
    outerBox.value = innerBox.value ∧
    ReflTransGen storage.Edge (.element outerBox) (.element innerBox) ∧
    TransGen storage.Edge (.element innerBox) (.element innerBox) ∧
    ¬TransGen storage.Edge (.element outerBox) (.element outerBox) := by
  have houter : .element outerBox ∈ storage.nodes :=
    Catalog.mem_nodes_of_part (Catalog.mem_nodes_of_part (Catalog.mem_nodes_of_part
      (Catalog.mem_nodes_of_topLevel (.element (i := 0) rfl)) (.type rfl)) (.content rfl rfl))
      (.particle (i := 0) rfl rfl)
  have hinner : .element innerBox ∈ storage.nodes :=
    Catalog.mem_nodes_of_part (Catalog.mem_nodes_of_part
      (Catalog.mem_nodes_of_topLevel (.complexType (i := 0) rfl)) (.content rfl rfl))
      (.particle (i := 0) rfl rfl)
  refine ⟨houter, hinner, rfl, ?_, (recursive_iff_cycle storage hinner).1.mp (by decide +kernel),
    fun h => ?_⟩
  · have htype : storage.Edge (.element outerBox) (.complexType boxType) := .type rfl
    refine .tail (.tail (.single htype) (.content rfl rfl)) (.particle (i := 0) rfl rfl)
  · have hrecursive := (recursive_iff_cycle storage houter).1.mpr h
    exact absurd hrecursive (by decide +kernel)

end SchemaSet

end SchemaShapes
