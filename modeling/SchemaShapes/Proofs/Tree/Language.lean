import Mathlib.Computability.Language
import SchemaShapes.Proofs.Shape.Occurrence
import SchemaShapes.Tree.Conversion

/-! Languages of content. The words that a particle accepts are the sequences of children that may
stand where it is: a sequence accepts what its children accept one after the other, a choice what
one of them accepts and an all group what they accept in any order, as many times as their bounds
allow. What a child is, and which children follow a declaration, is left open. -/
namespace SchemaShapes

variable {α : Type}

/-- Two lists are merged into a third one, in which each keeps its order. -/
inductive Merges : List α → List α → List α → Prop
  | nil : Merges [] [] []
  | left {x : α} {xs ys zs : List α} (h : Merges xs ys zs) : Merges (x :: xs) ys (x :: zs)
  | right {y : α} {xs ys zs : List α} (h : Merges xs ys zs) : Merges xs (y :: ys) (y :: zs)

/-- A word of each language, merged. -/
def mergedWords (l m : Language α) : Language α :=
  {w | ∃ u ∈ l, ∃ v ∈ m, Merges u v w}

/-- The words of as many rounds as bounds allow. -/
def Occurs.rounds (o : Occurs) (l : Language α) : Language α :=
  {w | ∃ n, o.Allows n ∧ w ∈ l ^ n}

/-- One round of a group whose children have the given languages. -/
def Compositor.round : Compositor → List (Language α) → Language α
  | .sequence, ls => ls.prod
  | .choice, ls => ls.sum
  | .all, ls => ls.foldr mergedWords 1

theorem Occurs.once_allows_iff {n : ℕ} : Occurs.once.Allows n ↔ n = 1 := by
  constructor
  · rintro ⟨hmin, hmax⟩
    have hlower : 1 ≤ n := hmin
    have hupper : n ≤ 1 := hmax
    omega
  · rintro rfl
    decide

theorem Occurs.rounds_once (l : Language α) : Occurs.once.rounds l = l := by
  apply Language.ext
  intro w
  constructor
  · rintro ⟨n, hn, hw⟩
    rwa [once_allows_iff.mp hn, pow_one] at hw
  · intro hw
    exact ⟨1, once_allows_iff.mpr rfl, by rwa [pow_one]⟩

namespace Tree

/-- Which children follow the declaration of an element, and which ones a wildcard lets in. -/
structure Children (α : Type) where
  follows : Element → α → Prop
  letIn : α → Prop

variable (a : Children α)

mutual

/-- The sequences of children that a particle accepts. -/
def Particle.language : Particle → Language α
  | .empty => 1
  | .any occurs => occurs.rounds {w | ∃ x, a.letIn x ∧ w = [x]}
  | .element occurs e => occurs.rounds {w | ∃ x, a.follows e x ∧ w = [x]}
  | .group k occurs children => occurs.rounds (k.round (languages children))

def languages : List Particle → List (Language α)
  | [] => []
  | p :: ps => p.language :: languages ps

end

/-- The sequences of children that contents accept; text has no children. -/
def Contents.language : Contents → Language α
  | .simple _ => 1
  | .complex p => p.language a

theorem languages_eq (ps : List Particle) : languages a ps = ps.map (Particle.language a) := by
  induction ps with
  | nil => rfl
  | cons p ps ih => rw [languages, ih, List.map_cons]

theorem language_empty : Particle.empty.language a = 1 := by
  rw [Particle.language]

/-- A sequence that occurs once accepts what its children accept, one after the other. -/
theorem language_sequence (children : List Particle) :
    (Particle.group .sequence .once children).language a =
      (children.map (Particle.language a)).prod := by
  rw [Particle.language, Occurs.rounds_once, languages_eq]
  rfl

/-- The children of a sequence that occurs once. -/
def Particle.sequence? : Particle → Option (List Particle)
  | .group .sequence occurs children => if occurs = .once then some children else none
  | _ => none

theorem Particle.eq_of_sequence? {p : Particle} {children : List Particle}
    (h : p.sequence? = some children) : p = .group .sequence .once children := by
  unfold sequence? at h
  split at h
  · split_ifs at h with honce
    rw [honce, Option.some.inj h]
  · cases h

/-- A particle accepts what its parts accept, one after the other. -/
theorem language_parts (p : Particle) :
    (p.parts.map (Particle.language a)).prod = p.language a := by
  unfold Particle.parts
  split
  · split_ifs with honce
    · rw [honce, language_sequence]
    · simp
  · simp

/-- Replacing particles by their parts changes nothing. -/
theorem language_flatMap_parts (ps : List Particle) :
    ((ps.flatMap Particle.parts).map (Particle.language a)).prod =
      (ps.map (Particle.language a)).prod := by
  induction ps with
  | nil => rfl
  | cons p ps ih =>
    rw [List.flatMap_cons, List.map_append, List.prod_append, ih, language_parts, List.map_cons,
      List.prod_cons]

end Tree

end SchemaShapes
