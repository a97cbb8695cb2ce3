/-! Places of components. A component is known by the declaration at the top level that it stands
in and by the way from there, so two components are the same only if they are one declaration,
however alike they are. -/
namespace SchemaShapes

/-- A declaration at the top level: the type of any content, or one of the documents, counted
through all of them. -/
inductive Root where
  | anyType
  | element (index : Nat)
  | complexType (index : Nat)
  | group (index : Nat)
  deriving DecidableEq

/-- Where a component stands. The last turn of the way from the root comes first. -/
structure Place where
  root : Root
  turns : List Nat
  deriving DecidableEq

/-- A component together with its place. -/
structure Located (α : Type) where
  place : Place
  value : α

namespace Place

/-- The place of a declaration at the top level. -/
def top (root : Root) : Place := ⟨root, []⟩

/-- The place of a part of the component at a place. -/
def part (p : Place) (i : Nat) : Place := { p with turns := i :: p.turns }

theorem part_inj {p q : Place} {i j : Nat} : p.part i = q.part j ↔ p = q ∧ i = j := by
  obtain ⟨r, t⟩ := p
  obtain ⟨s, u⟩ := q
  simp only [part, mk.injEq, List.cons.injEq]
  constructor
  · rintro ⟨rfl, rfl, rfl⟩
    exact ⟨⟨rfl, rfl⟩, rfl⟩
  · rintro ⟨⟨rfl, rfl⟩, rfl⟩
    exact ⟨rfl, rfl, rfl⟩

theorem part_ne_top {p : Place} {i : Nat} {r : Root} : p.part i ≠ top r := by
  simp [part, top]

end Place

end SchemaShapes
