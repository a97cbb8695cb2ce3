import Mathlib.Data.List.Chain
import SchemaShapes.Proofs.Tree.Unfolding

/-! Nested conversions. Writing out an element writes out its type, the content of that, the
particles of the content and whatever these lead to. One conversion is nested in another only so
deep: between two declarations one goes down into what is written there, and from one declaration
to the next one never comes back. -/
namespace SchemaShapes

open Relation (ReflTransGen TransGen)
open Schema

/-- Something that is being written out. -/
inductive Call where
  | element (e : Located Element)
  | complexType (t : Located ComplexType)
  | content (particles : List (Located Particle))
  | particle (p : Located Particle)
  | group (d : Located GroupDefinition)
  | modelGroup (g : Located ModelGroup)

namespace Call

/-- The declaration that is being written out, if it is one. -/
def declaration : Call → Option Declaration
  | .element e => some (.element e)
  | .group d => some (.group d)
  | _ => none

/-- The conversion of a declaration. -/
def of : Declaration → Call
  | .element e => .element e
  | .group d => .group d

theorem of_declaration {x : Call} {d : Declaration} (h : x.declaration = some d) : of d = x := by
  cases x <;> simp only [declaration, Option.some.injEq, reduceCtorEq] at h
  all_goals subst h; rfl

end Call

namespace Catalog

variable {c : Catalog}

/-- The first conversion needs the second. Elements and definitions of groups need others only if
they are not recursive. -/
inductive Nests (c : Catalog) : Call → Call → Prop
  | type {e : Located Element} {t : Located ComplexType}
    (hr : c.isRecursive (.element e) = false) (ht : c.elementType e = .complex t) :
    Nests c (.element e) (.complexType t)
  | content {t : Located ComplexType} (ht : c.contentType t ≠ .textOnly)
    (hu : c.contentType t ≠ .unknown) : Nests c (.complexType t) (.content (c.content t))
  | part {ps : List (Located Particle)} {p : Located Particle} (hp : p ∈ ps) :
    Nests c (.content ps) (.particle p)
  | element {place : Place} {occurs : Occurs} {e : Element} :
    Nests c (.particle ⟨place, .element occurs e⟩) (.element ⟨place, e⟩)
  | elementRef {place : Place} {occurs : Occurs} {q : QName} {e : Located Element}
    (he : c.findElement q = some e) : Nests c (.particle ⟨place, .elementRef occurs q⟩) (.element e)
  | modelGroup {place : Place} {g : ModelGroup} :
    Nests c (.particle ⟨place, .group g⟩) (.modelGroup ⟨place, g⟩)
  | groupRef {place : Place} {occurs : Occurs} {q : QName} {d : Located GroupDefinition}
    (hd : c.findGroup q = some d) : Nests c (.particle ⟨place, .groupRef occurs q⟩) (.group d)
  | definition {d : Located GroupDefinition} {g : ModelGroup}
    (hr : c.isRecursive (.group d) = false) (hg : d.value.modelGroup = some g) :
    Nests c (.group d) (.modelGroup ⟨d.place.part 0, g⟩)
  | particle {g : Located ModelGroup} {i : ℕ} {p : Particle} (hp : g.value.particles[i]? = some p) :
    Nests c (.modelGroup g) (.particle ⟨g.place.part i, p⟩)

/-! ### From one declaration to the next -/

/-- The declarations that a conversion reaches first. -/
def ahead (c : Catalog) : Call → List Declaration
  | .element e => [.element e]
  | .complexType t => c.declarationsOf t
  | .content ps => ps.flatMap fun p => c.declarationsIn p.place p.value
  | .particle p => c.declarationsIn p.place p.value
  | .group d => [.group d]
  | .modelGroup g => c.declarationsFrom g.place 0 g.value.particles

theorem ahead_of (d : Declaration) : c.ahead (.of d) = [d] := by
  cases d <;> rfl

theorem declarationsIn_subset (place : Place) (i : ℕ) {ps : List Particle} {p : Particle} {j : ℕ}
    (h : ps[j]? = some p) :
    c.declarationsIn (place.part (i + j)) p ⊆ c.declarationsFrom place i ps := by
  induction ps generalizing i j with
  | nil => simp at h
  | cons q ps ih =>
    rw [declarationsFrom]
    cases j with
    | zero =>
      obtain rfl : q = p := by simpa using h
      exact List.subset_append_left _ _
    | succ j =>
      rw [show i + (j + 1) = i + 1 + j by omega]
      have hrest := ih (i + 1) (j := j) (by simpa using h)
      exact List.Subset.trans hrest (List.subset_append_right _ _)

/-- What is nested in a declaration reaches first what the declaration enters. -/
theorem enters_of_nests {d d' : Declaration} {y : Call} (h : c.Nests (.of d) y)
    (hd' : d' ∈ c.ahead y) : c.Enters d d' := by
  cases d with
  | element e =>
    cases h with
    | type hr ht =>
      refine ⟨hr, ?_⟩
      rwa [inside, ht]
  | group d =>
    cases h with
    | definition hr hg =>
      refine ⟨hr, ?_⟩
      rwa [inside, hg]

/-- What is nested in anything else reaches first no more than that does. -/
theorem ahead_subset_of_nests {x y : Call} (h : c.Nests x y) (hx : x.declaration = none) :
    c.ahead y ⊆ c.ahead x := by
  cases h with
  | type hr ht => cases hx
  | definition hr hg => cases hx
  | content ht hu =>
    rw [ahead, ahead, declarationsOf_eq ht hu]
    exact List.Subset.refl _
  | part hp => exact fun d hd => List.mem_flatMap.mpr ⟨_, hp, hd⟩
  | element =>
    rw [ahead, ahead, declarationsIn]
    exact List.Subset.refl _
  | elementRef he =>
    rw [ahead, ahead, declarationsIn, he]
    exact List.Subset.refl _
  | @modelGroup place g =>
    cases g
    rw [ahead, ahead, declarationsIn]
    exact List.Subset.refl _
  | groupRef hd =>
    rw [ahead, ahead, declarationsIn, hd]
    exact List.Subset.refl _
  | @particle g i p hp =>
    have hsub := declarationsIn_subset (c := c) g.place 0 hp
    rwa [Nat.zero_add] at hsub

/-- All that is reached below a declaration is entered from it, one declaration after the other. -/
theorem enters_of_nested {d d' : Declaration} {y : Call} (h : TransGen c.Nests (.of d) y)
    (hd' : d' ∈ c.ahead y) : TransGen c.Enters d d' := by
  induction h generalizing d' with
  | single h => exact .single (enters_of_nests h hd')
  | @tail y z _ h ih =>
    cases hy : y.declaration with
    | none => exact ih (ahead_subset_of_nests h hy hd')
    | some d₁ =>
      obtain rfl := Call.of_declaration hy
      have hd₁ : d₁ ∈ c.ahead (.of d₁) := by
        rw [ahead_of]
        exact List.mem_singleton_self d₁
      exact (ih hd₁).tail (enters_of_nests h hd')

theorem enters_of_nested_declaration {x y : Call} {d d' : Declaration} (h : TransGen c.Nests x y)
    (hx : x.declaration = some d) (hy : y.declaration = some d') : TransGen c.Enters d d' := by
  obtain rfl := Call.of_declaration hx
  obtain rfl := Call.of_declaration hy
  refine enters_of_nested h ?_
  rw [ahead_of]
  exact List.mem_singleton_self d'

/-- No declaration stands twice on a chain of nested conversions. -/
theorem nodup_of_chain (hc : c.fault = none) {x : Call} {d : Declaration} (hd : c.Declares d)
    (hx : x.declaration = some d) {calls : List Call} (h : List.IsChain c.Nests (x :: calls)) :
    (((x :: calls).filterMap Call.declaration).map (·.node.place)).Nodup := by
  have hpairs : (x :: calls).Pairwise (TransGen c.Nests) :=
    List.isChain_iff_pairwise.mp (h.imp fun _ _ => TransGen.single)
  have hdeclares : ∀ y ∈ x :: calls, ∀ d', y.declaration = some d' → c.Declares d' := by
    intro y hy d' hd'
    rcases List.mem_cons.mp hy with rfl | hy
    · rw [hx] at hd'
      cases hd'
      exact hd
    · have hnested := (List.pairwise_cons.mp hpairs).1 y hy
      have henters := enters_of_nested_declaration hnested hx hd'
      exact mem_nodes_of_path hd (path_of_enters hc henters).to_reflTransGen
  refine List.pairwise_map.mpr (List.pairwise_filterMap.mpr ?_)
  -- Two declarations at one place are one, and it would enter itself.
  refine hpairs.imp_of_mem fun {y z} hy hz hyz d₁ hd₁ d₂ hd₂ hplace => ?_
  have hd₁' := hdeclares y hy d₁ hd₁
  have hnode := eq_of_place hd₁' (hdeclares z hz d₂ hd₂) hplace
  obtain rfl : d₁ = d₂ := by
    have := Declaration.ofNode_node d₁
    rw [hnode, Declaration.ofNode_node, Option.some.injEq] at this
    exact this.symm
  exact not_enters_self hc hd₁' (enters_of_nested_declaration hyz hd₁ hd₂)

/-! ### Ends -/

/-- Only finitely many conversions are nested in each other from the given one. -/
def Ends (c : Catalog) (x : Call) : Prop := Acc (fun y x => c.Nests x y) x

mutual

theorem ends_particle {place : Place} : (p : Particle) →
    (∀ d ∈ c.declarationsIn place p, c.Ends (.of d)) → c.Ends (.particle ⟨place, p⟩)
  | .any _ _, _ => Acc.intro _ fun y h => by cases h
  | .element _ e, hd => Acc.intro _ fun y h => by
    cases h
    exact hd (.element ⟨place, e⟩) (by simp [declarationsIn])
  | .elementRef _ q, hd => Acc.intro _ fun y h => by
    cases h with
    | elementRef he => exact hd (.element _) (by simp [declarationsIn, he])
  | .group ⟨compositor, occurs, ps⟩, hd => Acc.intro _ fun y h => by
    cases h
    refine Acc.intro _ fun y h => ?_
    cases h with
    | particle hp =>
      have hends := ends_particles place 0 ps (by rwa [declarationsIn] at hd) hp
      rwa [Nat.zero_add] at hends
  | .groupRef _ q, hd => Acc.intro _ fun y h => by
    cases h with
    | groupRef hg => exact hd (.group _) (by simp [declarationsIn, hg])

theorem ends_particles (place : Place) (i : ℕ) : (ps : List Particle) →
    (∀ d ∈ c.declarationsFrom place i ps, c.Ends (.of d)) → ∀ {j : ℕ} {p : Particle},
    ps[j]? = some p → c.Ends (.particle ⟨place.part (i + j), p⟩)
  | [], _, _, _, h => by simp at h
  | p :: ps, hd, 0, q, h => by
    obtain rfl : p = q := by simpa using h
    refine ends_particle p fun d hd' => hd d ?_
    rw [declarationsFrom]
    exact List.mem_append_left _ hd'
  | p :: ps, hd, j + 1, q, h => by
    rw [show i + (j + 1) = i + 1 + j by omega]
    refine ends_particles place (i + 1) ps (fun d hd' => hd d ?_) (by simpa using h)
    rw [declarationsFrom]
    exact List.mem_append_right _ hd'

end

theorem ends_complexType {t : Located ComplexType} (hd : ∀ d ∈ c.declarationsOf t, c.Ends (.of d)) :
    c.Ends (.complexType t) := by
  refine Acc.intro _ fun y h => ?_
  cases h with
  | content ht hu =>
    rw [declarationsOf_eq ht hu] at hd
    refine Acc.intro _ fun y h => ?_
    cases h with
    | part hp => exact ends_particle _ fun d hd' => hd d (List.mem_flatMap.mpr ⟨_, hp, hd'⟩)

/-- The conversion of a declaration comes to an end. -/
theorem ends_declaration (hc : c.fault = none) {d : Declaration} (hd : c.Declares d) :
    c.Ends (.of d) := by
  -- Between two declarations everything is written in one place, and is taken apart there.
  induction (heightLe_enters hc hd).acc with
  | intro d _ ih =>
    have hinside : c.isRecursive d.node = false → ∀ d' ∈ c.inside d, c.Ends (.of d') :=
      fun hr d' hd' => ih d' ⟨hr, hd'⟩ (declares_of_mem_inside hc hd hd')
    cases d with
    | element e =>
      refine Acc.intro _ fun y h => ?_
      cases h with
      | type hr ht =>
        refine ends_complexType fun d' hd' => hinside hr d' ?_
        rwa [inside, ht]
    | group d =>
      refine Acc.intro _ fun y h => ?_
      cases h with
      | @definition _ g hr hg =>
        refine Acc.intro _ fun y h => ?_
        cases h with
        | particle hp =>
          have hends : c.Ends _ := ends_particles (d.place.part 0) 0 g.particles
            (fun d' hd' => hinside hr d' (by rwa [inside, hg])) hp
          rwa [Nat.zero_add] at hends

end Catalog

namespace SchemaSet

/-- The conversion of any element of a schema set is a finite recursion: no declaration stands twice
on a chain of conversions that are nested in each other, only finitely many are, and the outcome
does not depend on how deep one looks, if it is deep enough. -/
theorem conversion_finite (s : SchemaSet) : s.ConversionUnfolds ∧ ∀ e, .element e ∈ s.nodes →
    (∀ calls, List.IsChain s.Nests (.element e :: calls) →
      (((.element e :: calls).filterMap Call.declaration).map (·.node.place)).Nodup) ∧
    Acc (fun y x => s.Nests x y) (.element e) ∧
    ∀ depth, s.places.length ≤ depth → s.elementToDepth depth e = s.elementTree e := by
  have hc := s.fault_eq_none
  refine ⟨Catalog.conversionUnfolds hc, fun e he => ⟨fun calls hcalls => ?_, ?_, ?_⟩⟩
  · exact Catalog.nodup_of_chain hc (d := .element e) he rfl hcalls
  · exact Catalog.ends_declaration hc (d := .element e) he
  · intro depth hdepth
    exact Catalog.conversionTo_agree (d := .element e) (Catalog.heightLe_enters hc he) hdepth

theorem conversion_finite_garden : .element gardenTree ∈ garden.nodes ∧
    Acc (fun y x => garden.Nests x y) (.element gardenTree) := by
  have hmem : .element gardenTree ∈ garden.nodes := Catalog.mem_nodes_of_topLevel (.element rfl)
  exact ⟨hmem, ((conversion_finite garden).2 gardenTree hmem).2.1⟩

end SchemaSet

end SchemaShapes
