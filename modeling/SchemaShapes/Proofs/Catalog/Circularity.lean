import SchemaShapes.Proofs.Catalog.Faults
import SchemaShapes.Proofs.SchemaSet.FirstFailure

/-! What circular derivation is blamed on. The bases of a type are followed from its declaration
until a name comes back, and the type where this starts is blamed. Either its own name comes back,
or the bases go round a circle that the type is not on; and the declaration need not be the one that
is found under its name. So a type that is blamed is derived from itself if its name has one
declaration and is on all circles that its bases lead to. -/
namespace SchemaShapes

open SchemaShapes.Graph
open Relation (ReflTransGen TransGen)
open Schema

/-! ### Types of a kind -/

/-- The declarations of types of one kind, and what their names are found to mean. -/
structure Derivations (α : Type) where
  declared : List α
  name : α → Option QName
  base : α → Option QName
  found : QName → Option α

namespace Derivations

variable {α : Type} (d : Derivations α)

/-- Following bases from a type meets a name. -/
inductive Meets : α → QName → Prop
  | base {t : α} {q : QName} (hq : d.base t = some q) : Meets t q
  | onward {t u : α} {q r : QName} (hq : d.base t = some q) (hu : d.found q = some u)
    (h : Meets u r) : Meets t r

/-- The type that is found under the first name is derived from the second name. -/
def Derived (q r : QName) : Prop := ∃ t, d.found q = some t ∧ d.Meets t r

/-- A declaration that can be blamed for a circle: its bases come back to its name, or lead to a
type that is derived from itself. -/
structure Blamed (n : QName) (t : α) : Prop where
  declared : t ∈ d.declared
  named : d.name t = some n
  circle : d.Meets t n ∨ ∃ l, d.Meets t l ∧ d.Derived l l

/-- No declaration of a name is hidden by another one. -/
def DeclaredOnce (n : QName) : Prop := ∀ t ∈ d.declared, d.name t = some n → d.found n = some t

/-- A name is on all circles that its bases lead to. -/
def OnItsCircles (n : QName) : Prop := ∀ l, d.Derived n l → d.Derived l l → d.Derived l n

/-- A declaration of a name can be blamed, and if it is the one that is found, the name is derived
from itself exactly if it is on all circles that its bases lead to. -/
def Blames (n : QName) : Prop :=
  ∃ t, d.Blamed n t ∧ (d.found n = some t → (d.Derived n n ↔ d.OnItsCircles n))

/-- The base of the type that is found under a name. -/
def next (q : QName) : Option QName := (d.found q).bind d.base

variable {d}

theorem meets_iff {t : α} {r : QName} :
    d.Meets t r ↔ ∃ b, d.base t = some b ∧ ReflTransGen (Follows d.next) b r := by
  constructor
  · intro h
    induction h with
    | base hq => exact ⟨_, hq, .refl⟩
    | onward hq hu _ ih =>
      obtain ⟨b, hb, hpath⟩ := ih
      exact ⟨_, hq, .head (Option.bind_eq_some_iff.mpr ⟨_, hu, hb⟩) hpath⟩
  · rintro ⟨b, hb, hpath⟩
    induction hpath using ReflTransGen.head_induction_on generalizing t with
    | refl => exact .base hb
    | head hstep _ ih =>
      obtain ⟨u, hu, hbase⟩ := Option.bind_eq_some_iff.mp hstep
      exact .onward hb hu (ih hbase)

theorem derived_iff {q r : QName} : d.Derived q r ↔ TransGen (Follows d.next) q r := by
  rw [TransGen.head'_iff]
  constructor
  · rintro ⟨t, ht, hmeets⟩
    obtain ⟨b, hb, hpath⟩ := meets_iff.mp hmeets
    exact ⟨b, Option.bind_eq_some_iff.mpr ⟨t, ht, hb⟩, hpath⟩
  · rintro ⟨b, hstep, hpath⟩
    obtain ⟨t, ht, hb⟩ := Option.bind_eq_some_iff.mp hstep
    exact ⟨t, ht, meets_iff.mpr ⟨b, hb, hpath⟩⟩

/-- A type that can be blamed and is found is derived from itself exactly if it is on all circles
that its bases lead to. -/
theorem Blamed.derived_iff {n : QName} {t : α} (h : d.Blamed n t) (hfound : d.found n = some t) :
    d.Derived n n ↔ d.OnItsCircles n := by
  constructor
  · intro hn l hl _
    rw [Derivations.derived_iff] at hn hl ⊢
    exact transGen_of_circle hn hl.to_reflTransGen
  · intro hback
    rcases h.circle with hmeets | ⟨l, hmeets, hl⟩
    · exact ⟨t, hfound, hmeets⟩
    · have hnl : d.Derived n l := ⟨t, hfound, hmeets⟩
      have hln := hback l hnl hl
      rw [Derivations.derived_iff] at hnl hln ⊢
      exact hnl.trans hln

/-- A declaration whose walk comes back can be blamed. -/
theorem blamed_of_walk {domain : List QName} {n b : QName} {t : α} (ht : t ∈ d.declared)
    (hn : d.name t = some n) (hb : d.base t = some b)
    (h : (walk d.next domain [n] b).returns = true) : d.Blamed n t := by
  obtain ⟨l, hl, hseen | hcircle⟩ := exists_return_of_walk h
  · obtain rfl := List.mem_singleton.mp hseen
    exact ⟨ht, hn, .inl (meets_iff.mpr ⟨b, hb, hl⟩)⟩
  · exact ⟨ht, hn, .inr ⟨l, meets_iff.mpr ⟨b, hb, hl⟩, derived_iff.mpr hcircle⟩⟩

theorem blames_of_walk {domain : List QName} {n b : QName} {t : α} (ht : t ∈ d.declared)
    (hn : d.name t = some n) (hb : d.base t = some b)
    (h : (walk d.next domain [n] b).returns = true) : d.Blames n := by
  have hblamed := blamed_of_walk ht hn hb h
  exact ⟨t, hblamed, hblamed.derived_iff⟩

/-- A name that has one declaration and is on its circles is derived from itself if it is blamed. -/
theorem Blames.derived {n : QName} (h : d.Blames n) (honce : d.DeclaredOnce n)
    (hcircles : d.OnItsCircles n) : d.Derived n n := by
  obtain ⟨t, hblamed, hiff⟩ := h
  exact (hiff (honce t hblamed.declared hblamed.named)).mpr hcircles

end Derivations

namespace Catalog

variable (c : Catalog)

def complexDerivations : Derivations ComplexType where
  declared := c.complexTypes
  name := ComplexType.name
  base := ComplexType.base
  found q := (c.findComplexType q).map (·.value)

/-- Simple types have their bases through types without a name. -/
def simpleDerivations : Derivations SimpleType where
  declared := c.simpleTypes
  name := SimpleType.name
  base := SimpleType.base
  found := c.findSimpleType

variable {c}

theorem next_complexDerivations : c.complexDerivations.next = c.complexBase := by
  funext q
  exact Option.bind_map

theorem exists_walk_of_derivationFault {next : QName → Option QName} {domain : List QName}
    {name base : Option QName} {n : QName}
    (h : derivationFault next domain name base = some (.circularDerivation n)) :
    ∃ b, name = some n ∧ base = some b ∧ (walk next domain [n] b).returns = true := by
  unfold derivationFault at h
  split at h
  · next start b =>
    split_ifs at h with hreturns
    cases h
    exact ⟨b, rfl, rfl, hreturns⟩
  · cases h

theorem attributeGroupFault_ne_circularDerivation {g : AttributeGroup} {n : QName} :
    c.attributeGroupFault g ≠ some (.circularDerivation n) := by
  intro h
  simp only [attributeGroupFault] at h
  split_ifs at h
  cases h

/-- Circular derivation is blamed on a type that is declared in one of the documents. -/
theorem exists_of_circularityIn {d : LoadedDocument} (hd : d ∈ c.documents) {n : QName}
    (h : c.circularityIn d.document = some (.circularDerivation n)) :
    (∃ t ∈ c.complexTypes, c.complexTypeFault t = some (.circularDerivation n)) ∨
      ∃ t ∈ c.simpleTypes, c.simpleTypeFault t = some (.circularDerivation n) := by
  rcases Option.or_eq_some_iff.mp h with h | ⟨-, h⟩
  · obtain ⟨t, ht, hfault⟩ := List.exists_of_findSome?_eq_some h
    exact .inl ⟨t, List.mem_flatMap.mpr ⟨d, hd, ht⟩, hfault⟩
  rcases Option.or_eq_some_iff.mp h with h | ⟨-, h⟩
  · obtain ⟨t, ht, hfault⟩ := List.exists_of_findSome?_eq_some h
    exact .inr ⟨t, List.mem_flatMap.mpr ⟨d, hd, ht⟩, hfault⟩
  · obtain ⟨g, -, hfault⟩ := List.exists_of_findSome?_eq_some h
    exact absurd hfault attributeGroupFault_ne_circularDerivation

theorem blames_of_fault {n : QName} (h : c.fault = some (.circularDerivation n)) :
    c.complexDerivations.Blames n ∨ c.simpleDerivations.Blames n := by
  have hdocuments : c.documents.findSome? (fun d => c.circularityIn d.document) =
      some (.circularDerivation n) := by
    rcases Option.or_eq_some_iff.mp h with h | ⟨-, h⟩
    · obtain ⟨r, -, hr⟩ := Option.map_eq_some_iff.mp h
      cases hr
    · exact h
  obtain ⟨d, hd, hfault⟩ := List.exists_of_findSome?_eq_some hdocuments
  rcases exists_of_circularityIn hd hfault with ⟨t, ht, hfault⟩ | ⟨t, ht, hfault⟩
  · obtain ⟨b, hn, hb, hwalk⟩ := exists_walk_of_derivationFault hfault
    rw [← next_complexDerivations] at hwalk
    exact .inl (Derivations.blames_of_walk ht hn hb hwalk)
  · obtain ⟨b, hn, hb, hwalk⟩ := exists_walk_of_derivationFault hfault
    exact .inr (Derivations.blames_of_walk (d := c.simpleDerivations) ht hn hb hwalk)

end Catalog

namespace SchemaSet

/-- If documents make no set because a type is derived from itself, the type that is named has a
declaration whose bases come back to its name or lead to a type that is derived from itself. If this
declaration is found under the name, the type is derived from itself exactly if it is on all
circles that its bases lead to. So it is derived from itself if its name has one declaration
and is on its circles. -/
theorem circularity_blamed {documents : List LoadedDocument} {n : QName}
    (h : ofDocuments documents = .error (.faulty (.circularDerivation n))) :
    ((Catalog.mk documents).complexDerivations.Blames n ∨
      (Catalog.mk documents).simpleDerivations.Blames n) ∧
    ((Catalog.mk documents).complexDerivations.DeclaredOnce n →
      (Catalog.mk documents).simpleDerivations.DeclaredOnce n →
      (Catalog.mk documents).complexDerivations.OnItsCircles n →
      (Catalog.mk documents).simpleDerivations.OnItsCircles n →
      (Catalog.mk documents).complexDerivations.Derived n n ∨
        (Catalog.mk documents).simpleDerivations.Derived n n) := by
  obtain ⟨fault, heq, hfault⟩ := exists_fault_of_ofDocuments h
  cases heq
  have hblames := Catalog.blames_of_fault hfault
  refine ⟨hblames, fun hcomplex hsimple hcomplex' hsimple' => ?_⟩
  rcases hblames with hblames | hblames
  · exact .inl (hblames.derived hcomplex hcomplex')
  · exact .inr (hblames.derived hsimple hsimple')

/-- A shelf is a rack, and a rack is a shelf. -/
def racks : List LoadedDocument :=
  [⟨none, { Document.empty none with
    complexTypes := [⟨some ⟨none, "shelf"⟩, false, .complex .extension ⟨none, "rack"⟩ none, []⟩,
      ⟨some ⟨none, "rack"⟩, false, .complex .extension ⟨none, "shelf"⟩ none, []⟩] }⟩]

/-- A shelf is derived from itself. -/
theorem circularity_blamed_shelf :
    ofDocuments racks = .error (.faulty (.circularDerivation ⟨none, "shelf"⟩)) ∧
    (Catalog.mk racks).complexDerivations.Blames ⟨none, "shelf"⟩ ∧
    (Catalog.mk racks).complexDerivations.Derived ⟨none, "shelf"⟩ ⟨none, "shelf"⟩ := by
  have hfault : ofDocuments racks = .error (.faulty (.circularDerivation ⟨none, "shelf"⟩)) :=
    ofDocuments_of_fault (by decide +kernel)
  have honce : (Catalog.mk racks).complexDerivations.DeclaredOnce ⟨none, "shelf"⟩ := by
    intro t ht hname
    rcases List.mem_pair.mp ht with rfl | rfl
    · rfl
    · simp [Catalog.complexDerivations] at hname
  have hshelf : Follows (Catalog.mk racks).complexDerivations.next
      ⟨none, "shelf"⟩ ⟨none, "rack"⟩ := rfl
  have hrack : Follows (Catalog.mk racks).complexDerivations.next
      ⟨none, "rack"⟩ ⟨none, "shelf"⟩ := rfl
  have hcircles : (Catalog.mk racks).complexDerivations.OnItsCircles ⟨none, "shelf"⟩ := by
    intro l hl _
    rw [Derivations.derived_iff] at hl ⊢
    exact transGen_of_circle (.tail (.single hshelf) hrack) hl.to_reflTransGen
  have hnothing : ∀ l, ¬(Catalog.mk racks).simpleDerivations.Derived ⟨none, "shelf"⟩ l := by
    rintro l ⟨t, ht, -⟩
    cases ht
  obtain ⟨hblames, hderived⟩ := circularity_blamed hfault
  have hno : ¬(Catalog.mk racks).simpleDerivations.Blames ⟨none, "shelf"⟩ := by
    rintro ⟨t, ht, -⟩
    cases ht.declared
  refine ⟨hfault, hblames.resolve_right hno, ?_⟩
  refine (hderived honce ?_ hcircles fun l hl => absurd hl (hnothing l)).resolve_right
    (hnothing _)
  intro t ht
  cases ht

/-- A parcel is a box, and a box is a box. -/
def parcelText : String :=
  "<s:schema xmlns:s=\"http://www.w3.org/2001/XMLSchema\"><s:complexType name=\"parcel\">" ++
    "<s:complexContent><s:extension base=\"box\"/></s:complexContent></s:complexType>" ++
    "<s:complexType name=\"box\"><s:complexContent><s:extension base=\"box\"/>" ++
    "</s:complexContent></s:complexType></s:schema>"

/-- The parcel is blamed for the box, although it is not derived from itself. -/
theorem circularity_misnamed_parcel : ∃ documents,
    loadDocuments (.ofTexts []) none parcelText = .ok documents ∧
    compile parcelText (.ofTexts []) = .error (.faulty (.circularDerivation ⟨none, "parcel"⟩)) ∧
    ofDocuments documents = .error (.faulty (.circularDerivation ⟨none, "parcel"⟩)) ∧
    ¬(Catalog.mk documents).complexDerivations.Derived ⟨none, "parcel"⟩ ⟨none, "parcel"⟩ ∧
    ¬(Catalog.mk documents).simpleDerivations.Derived ⟨none, "parcel"⟩ ⟨none, "parcel"⟩ := by
  have hdocuments : (loadDocuments (.ofTexts []) none parcelText).toOption.any fun documents =>
      (Catalog.mk documents).complexDerivations.next ⟨none, "parcel"⟩ = some ⟨none, "box"⟩ ∧
      (Catalog.mk documents).complexDerivations.next ⟨none, "box"⟩ = some ⟨none, "box"⟩ ∧
      (Catalog.mk documents).simpleDerivations.next ⟨none, "parcel"⟩ = none ∧
      (Catalog.mk documents).fault = some (.circularDerivation ⟨none, "parcel"⟩) := by
    decide +kernel
  obtain ⟨documents, hload, h⟩ := (Option.any_eq_true _ _).mp hdocuments
  obtain ⟨hparcel, hbox, hnone, hfault⟩ := of_decide_eq_true h
  have hload := eq_ok_of_toOption hload
  have herror := ofDocuments_of_fault hfault
  have hends : ∀ r, TransGen (Follows (Catalog.mk documents).complexDerivations.next)
      ⟨none, "parcel"⟩ r → r = ⟨none, "box"⟩ := by
    intro r hr
    induction hr with
    | single hr => exact (Option.some.inj (hparcel.symm.trans hr)).symm
    | tail _ hr ih =>
      subst ih
      exact (Option.some.inj (hbox.symm.trans hr)).symm
  refine ⟨documents, hload, ?_, herror, fun h => ?_, fun h => ?_⟩
  · rw [compile, ofRoot, hload]
    exact herror
  · exact absurd (hends _ (Derivations.derived_iff.mp h)) (by decide)
  · obtain ⟨b, hb, -⟩ := TransGen.head'_iff.mp (Derivations.derived_iff.mp h)
    rw [Follows, hnone] at hb
    cases hb

end SchemaSet

end SchemaShapes
