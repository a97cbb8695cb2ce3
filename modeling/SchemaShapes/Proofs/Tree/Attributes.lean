import SchemaShapes.Proofs.Catalog.Attributes
import SchemaShapes.Proofs.Traversal

/-! Attributes of a complex type. Of all uses that the type brings, those of its base in front and
with every attribute group in the place of the reference to it, the last one of each attribute
counts, and the attributes stand in the order in which they are first used. A prohibited last use
takes the attribute back, and it can be brought back by a later one. -/
namespace SchemaShapes

open Schema

namespace AttributeUse

/-- The names of used attributes, in the order in which they first appear. -/
def namesOf (uses : List AttributeUse) : List QName := (uses.map name).eraseDups

/-- The last use of an attribute. -/
def last? (uses : List AttributeUse) (q : QName) : Option AttributeUse :=
  uses.findRev? (·.name = q)

/-- What a last use admits: no attribute if it is prohibited, else one that is optional unless it is
required. -/
def admitted? (u : AttributeUse) : Option Tree.Attribute :=
  if u.usage = some .prohibited then none
  else some ⟨u.name, u.type, u.usage ≠ some .required⟩

end AttributeUse

open AttributeUse (namesOf last? admitted?)

namespace Catalog

variable {c : Catalog} {t : Located ComplexType}

theorem convertAttributes_eq (t : Located ComplexType) :
    c.convertAttributes t = (c.attributeUses t).filterMap admitted? := by
  rw [convertAttributes, ← List.filterMap_eq_map, List.filterMap_filter]
  refine List.filterMap_congr fun u _ => ?_
  by_cases h : u.usage = some .prohibited <;> simp [admitted?, h, AttributeUse.toTree]

theorem attributes_of_complexTypeTree {d : Tree.Description} (h : c.complexTypeTree t = .ok d) :
    d.attributes = c.convertAttributes t := by
  obtain ⟨contents, -, rfl⟩ := exists_of_map_eq_ok h
  rfl

end Catalog

namespace SchemaSet

/-- The attributes of a complex type are those that its base, its items and the groups in them use,
in the order of their first uses and each with its last one. Written out, those are left out whose
last use is prohibited, and those are optional whose last use is not required. -/
theorem attributes_lastUse (s : SchemaSet) {t : Located ComplexType}
    (ht : .complexType t ∈ s.nodes) :
    ∃ uses, s.TypeBrings t uses ∧ (∀ uses', s.TypeBrings t uses' → uses' = uses) ∧
      (namesOf uses).Nodup ∧ (s.attributeUses t).map (·.name) = namesOf uses ∧
      (∀ u ∈ s.attributeUses t, last? uses u.name = some u) ∧
      ∀ d, s.complexTypeTree t = .ok d →
        d.attributes = (namesOf uses).filterMap fun q => (last? uses q).bind admitted? := by
  obtain ⟨uses, hbrings, heq⟩ := Catalog.exists_typeBrings s.fault_eq_none ht
  have hnames : (s.attributeUses t).map (·.name) = namesOf uses := by
    rw [heq]
    exact Keyed.map_key_ofList uses
  refine ⟨uses, hbrings, fun uses' => hbrings.unique, ?_, hnames, fun u hu => ?_, fun d hd => ?_⟩
  · rw [← hnames, heq]
    exact Keyed.nodup_ofList uses
  · rw [heq] at hu
    exact Keyed.findRev?_of_mem_ofList hu
  · rw [Catalog.attributes_of_complexTypeTree hd, Catalog.convertAttributes_eq, heq,
      Keyed.ofList_eq_filterMap, List.filterMap_filterMap]
    rfl

/-- A bench has a length and what furniture has. -/
def bench : Located ComplexType :=
  ⟨.top (.complexType 0), ⟨some ⟨none, "bench"⟩, false, .particle none,
    [.declared ⟨⟨none, "length"⟩, .named (.xs "int")⟩ (some .required),
      .group ⟨none, "furniture"⟩]⟩⟩

/-- A stool is a bench without a length and without a colour, but with legs. -/
def stool : Located ComplexType :=
  ⟨.top (.complexType 1), ⟨some ⟨none, "stool"⟩, false,
    .complex .extension ⟨none, "bench"⟩ none,
    [.declared ⟨⟨none, "length"⟩, .unspecified⟩ (some .prohibited),
      .reference ⟨none, "colour"⟩ (some .prohibited),
      .declared ⟨⟨none, "legs"⟩, .named (.xs "int")⟩ none]⟩⟩

/-- A bar stool is a stool that has to have a colour. -/
def barStool : Located ComplexType :=
  ⟨.top (.complexType 2), ⟨some ⟨none, "barStool"⟩, false,
    .complex .extension ⟨none, "stool"⟩ none,
    [.reference ⟨none, "colour"⟩ (some .required)]⟩⟩

/-- Furniture has a size and a colour; the group of the size is referred to twice. -/
def furniture : SchemaSet where
  documents := [⟨none, { Document.empty none with
    complexTypes := [bench.value, stool.value, barStool.value]
    attributeGroups := [⟨⟨none, "furniture"⟩, [.group ⟨none, "size"⟩, .reference ⟨none, "colour"⟩ none,
        .group ⟨none, "size"⟩]⟩,
      ⟨⟨none, "size"⟩, [.declared ⟨⟨none, "height"⟩, .named (.xs "decimal")⟩ none]⟩]
    attributes := [⟨⟨none, "colour"⟩, .named (.xs "token")⟩] }⟩]
  fault_eq_none := by decide +kernel

/-- The length is gone for good, the colour is back in its old place. -/
theorem attributes_lastUse_barStool : .complexType barStool ∈ furniture.nodes ∧ ∃ uses d,
    furniture.TypeBrings barStool uses ∧ uses.map (·.name.name) =
      ["length", "height", "colour", "height", "length", "colour", "legs", "colour"] ∧
    furniture.complexTypeTree barStool = .ok d ∧ d.attributes =
      [⟨⟨none, "height"⟩, .decimal, true⟩, ⟨⟨none, "colour"⟩, .token, false⟩,
        ⟨⟨none, "legs"⟩, .int, true⟩] := by
  have hmem : .complexType barStool ∈ furniture.nodes :=
    Catalog.mem_nodes_of_topLevel (.complexType (i := 2) rfl)
  have hbench : furniture.TypeBrings bench _ := .underived rfl <| .declared <|
    .group rfl (.group rfl (.declared .nil) <| .reference rfl <| .group rfl (.declared .nil) .nil)
      .nil
  have hstool : furniture.TypeBrings stool _ := .complex rfl rfl hbench <| .declared <|
    .reference rfl <| .declared .nil
  have hbarStool : furniture.TypeBrings barStool _ := .complex rfl rfl hstool <|
    .reference rfl .nil
  have htree : (furniture.complexTypeTree barStool).toOption.isSome := by decide +kernel
  obtain ⟨d, hd⟩ := Option.isSome_iff_exists.mp htree
  have hd := eq_ok_of_toOption hd
  obtain ⟨uses, -, hunique, -, -, -, hattributes⟩ := attributes_lastUse furniture hmem
  obtain rfl := hunique _ hbarStool
  refine ⟨hmem, _, d, hbarStool, rfl, hd, (hattributes d hd).trans ?_⟩
  decide +kernel

end SchemaSet

end SchemaShapes
