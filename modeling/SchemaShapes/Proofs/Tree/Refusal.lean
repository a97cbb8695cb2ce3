import Mathlib.Data.List.Lex
import SchemaShapes.Proofs.Tree.Unfolding

/-! Declarations without a tree. A conversion goes through the declarations inside a declaration in
document order, each with all that is inside it before the next, and stops at the first one that
lies on a cycle of the component graph or that makes no sense. What it says is why it stopped. -/
namespace SchemaShapes

open Relation (ReflTransGen TransGen)
open Schema
open SchemaShapes.Tree (ConversionError)

/-- Why nothing was written out, if nothing was. -/
def failure {α : Type} : Converted α → Option ConversionError
  | .error e => some e
  | .ok _ => none

theorem failure_map {α β : Type} (f : α → β) (x : Converted α) : failure (x.map f) = failure x := by
  cases x <;> rfl

theorem eq_error_of_failure {α : Type} {x : Converted α} {err : ConversionError}
    (h : failure x = some err) : x = .error err := by
  cases x with
  | error e => rw [Option.some.inj h]
  | ok a => cases h

theorem exists_ok_of_failure {α : Type} {x : Converted α} (h : failure x = none) :
    ∃ a, x = .ok a := by
  cases x with
  | error e => cases h
  | ok a => exact ⟨a, rfl⟩

/-- A list is not written out because of the first of its entries that is not. -/
theorem failure_mapM {α β : Type} (f : α → Converted β) (xs : List α) :
    failure (xs.mapM f) = xs.findSome? fun x => failure (f x) := by
  induction xs with
  | nil => rfl
  | cons x xs ih =>
    rw [List.mapM_cons, List.findSome?_cons, ← ih]
    cases f x with
    | error e => rfl
    | ok y => cases xs.mapM f <;> rfl

/-- Why a conversion does not write a declaration out. -/
def Conversion.failure (k : Conversion) : Declaration → Option ConversionError
  | .element e => SchemaShapes.failure (k.element e)
  | .group d => SchemaShapes.failure (k.group .once d)

/-- The bounds of references are no reason not to write a group out. -/
def Conversion.Uniform (k : Conversion) : Prop :=
  ∀ occurs d, SchemaShapes.failure (k.group occurs d) = k.failure (.group d)

namespace Catalog

variable {c : Catalog} {k : Conversion}

/-! ### The first failure in document order -/

mutual

theorem failure_convertParticle (hk : k.Uniform) {place : Place} : (p : Particle) →
    failure (c.convertParticle k place p) = (c.declarationsIn place p).findSome? k.failure
  | .any _ _ => by
    rw [convertParticle, declarationsIn]
    rfl
  | .element _ e => by
    rw [convertParticle, declarationsIn, failure_map, List.findSome?_singleton]
    rfl
  | .elementRef _ q => by
    rw [convertParticle, declarationsIn]
    cases c.findElement q with
    | none => rfl
    | some e =>
      simp only [failure_map, Option.map_some, Option.toList_some, List.findSome?_singleton]
      rfl
  | .group ⟨_, _, ps⟩ => by
    rw [convertParticle, declarationsIn, failure_map]
    exact failure_convertParticles hk place 0 ps
  | .groupRef occurs q => by
    rw [convertParticle, declarationsIn]
    cases c.findGroup q with
    | none => rfl
    | some d =>
      simp only [Option.map_some, Option.toList_some, List.findSome?_singleton]
      exact hk occurs d

theorem failure_convertParticles (hk : k.Uniform) (place : Place) (i : ℕ) : (ps : List Particle) →
    failure (c.convertParticles k place i ps) = (c.declarationsFrom place i ps).findSome? k.failure
  | [] => by
    rw [convertParticles, declarationsFrom]
    rfl
  | p :: ps => by
    rw [declarationsFrom, List.findSome?_append, ← failure_convertParticle hk p,
      ← failure_convertParticles hk place (i + 1) ps, convertParticles]
    cases c.convertParticle k (place.part i) p with
    | error e => rfl
    | ok q => cases c.convertParticles k place (i + 1) ps <;> rfl

end

theorem failure_convertContent (hk : k.Uniform) (ps : List (Located Particle)) :
    failure (c.convertContent k ps) =
      (ps.flatMap fun p => c.declarationsIn p.place p.value).findSome? k.failure := by
  have hmap : failure (ps.mapM fun p => c.convertParticle k p.place p.value) =
      (ps.flatMap fun p => c.declarationsIn p.place p.value).findSome? k.failure := by
    rw [failure_mapM]
    induction ps with
    | nil => rfl
    | cons p ps ih =>
      rw [List.findSome?_cons, List.flatMap_cons, List.findSome?_append, ih,
        failure_convertParticle hk]
      cases (c.declarationsIn p.place p.value).findSome? k.failure <;> rfl
  rw [← hmap]
  match ps with
  | [] => rfl
  | [p] =>
    rw [convertContent, List.mapM_cons]
    cases c.convertParticle k p.place p.value <;> rfl
  | p :: q :: ps =>
    simp only [convertContent]
    cases (p :: q :: ps).mapM fun p => c.convertParticle k p.place p.value <;> rfl

/-- Why a declaration makes no sense, whatever is inside it. -/
def shapeFault (c : Catalog) : Declaration → Option ConversionError
  | .element e =>
    match c.elementType e with
    | .simple _ => none
    | .complex t =>
      if c.contentType t = .unknown then some (.unknownTypeShape (.content t.value.name)) else none
    | .unknown => some (.unknownTypeShape (.element e.value.name))
  | .group d =>
    match d.value.modelGroup with
    | some _ => none
    | none => some (.unknownGroupKind d.value.name)

/-- Why a conversion stops at a declaration before it looks inside. -/
def stop (c : Catalog) (d : Declaration) : Option ConversionError :=
  if c.isRecursive d.node then some (.recursive d.name) else c.shapeFault d

theorem failure_convertComplexType (hk : k.Uniform) (t : Located ComplexType) :
    failure (c.convertComplexType k t) =
      (if c.contentType t = .unknown then some (.unknownTypeShape (.content t.value.name))
        else none).or ((c.declarationsOf t).findSome? k.failure) := by
  rw [convertComplexType, failure_map, convertContents, declarationsOf]
  cases c.contentType t with
  | textOnly => rfl
  | unknown => rfl
  | empty | elementOnly | mixed =>
    simp only [failure_map, failure_convertContent hk]
    rfl

theorem uniform_conversionTo (c : Catalog) (n : ℕ) : (c.conversionTo n).Uniform := by
  intro occurs d
  show failure (c.groupToDepth n occurs d) = failure (c.groupToDepth n .once d)
  cases n with
  | zero => rw [groupToDepth, groupToDepth]
  | succ n =>
    rw [groupToDepth, groupToDepth]
    by_cases hr : c.isRecursive (.group d)
    · rw [if_pos hr, if_pos hr]
    · rw [if_neg hr, if_neg hr]
      cases d.value.modelGroup with
      | none => rfl
      | some g => simp only [convertModelGroup, failure_map]

/-- A declaration is not written out because of itself or else because of the first declaration
inside it that is not. -/
theorem failure_eq (h : c.fault = none) {d : Declaration} (hd : c.Declares d) :
    c.conversion.failure d =
      (c.stop d).or ((c.inside d).findSome? c.conversion.failure) := by
  have hk : c.conversion.Uniform := c.uniform_conversionTo c.places.length
  cases d with
  | element e =>
    show failure (c.elementTree e) = _
    rw [elementTree_eq h hd, stop, shapeFault, inside]
    show _ = (if c.isRecursive (.element e) then _ else _ : Option ConversionError).or _
    by_cases hr : c.isRecursive (.element e)
    · rw [if_pos hr, if_pos hr]
      rfl
    · rw [if_neg hr, if_neg hr]
      cases c.elementType e with
      | simple code => rfl
      | unknown => rfl
      | complex t =>
        simp only [failure_map]
        exact failure_convertComplexType hk t
  | group d =>
    show failure (c.groupTree .once d) = _
    rw [groupTree_eq h hd, stop, shapeFault, inside]
    show _ = (if c.isRecursive (.group d) then _ else _ : Option ConversionError).or _
    by_cases hr : c.isRecursive (.group d)
    · rw [if_pos hr, if_pos hr]
      rfl
    · rw [if_neg hr, if_neg hr]
      cases d.value.modelGroup with
      | none => rfl
      | some g =>
        simp only [modelGroupTree, convertModelGroup, failure_map]
        exact failure_convertParticles hk _ 0 g.particles

/-! ### Ways -/

/-- The conversion of the first declaration reaches the second one. The way there says which of the
declarations inside to go on to, time and again. -/
inductive Reaches (c : Catalog) : Declaration → List ℕ → Declaration → Prop
  | here {d : Declaration} : Reaches c d [] d
  | inside {d d₁ d₂ : Declaration} {i : ℕ} {way : List ℕ} (hi : (c.inside d)[i]? = some d₁)
    (h : Reaches c d₁ way d₂) : Reaches c d (i :: way) d₂

/-- The first way comes before the second in document order, where a declaration comes before what
is inside it. -/
def Before (way way' : List ℕ) : Prop := List.Lex (· < ·) way way'

theorem Reaches.unique {d d₁ d₂ : Declaration} {way : List ℕ} (h₁ : c.Reaches d way d₁)
    (h₂ : c.Reaches d way d₂) : d₁ = d₂ := by
  induction h₁ with
  | here =>
    cases h₂
    rfl
  | inside hi _ ih =>
    cases h₂ with
    | inside hi' h₂ =>
      rw [hi, Option.some.injEq] at hi'
      subst hi'
      exact ih h₂

theorem before_or_eq_or_before (way way' : List ℕ) :
    Before way way' ∨ way = way' ∨ Before way' way :=
  trichotomous_of (List.Lex (· < ·)) way way'

/-- A conversion reaches a declaration where it stops, and none where it stops comes before. -/
structure FirstStop (c : Catalog) (d : Declaration) (err : ConversionError) (way : List ℕ)
    (m : Declaration) : Prop where
  reaches : c.Reaches d way m
  stops : c.stop m = some err
  first : ∀ way' m', c.Reaches d way' m' → (c.stop m').isSome → ¬Before way' way

theorem firstStop_here {d : Declaration} {err : ConversionError} (h : c.stop d = some err) :
    c.FirstStop d err [] d where
  reaches := .here
  stops := h
  first _ _ _ _ := List.not_lex_nil

/-- The first stop inside a declaration is that of the first declaration inside that has one. -/
theorem firstStop_inside {d d₁ m : Declaration} {err : ConversionError} {way : List ℕ}
    {before after : List Declaration} (hd : c.stop d = none)
    (hinside : c.inside d = before ++ d₁ :: after)
    (hbefore : ∀ d' ∈ before, ∀ way m, c.Reaches d' way m → c.stop m = none)
    (h : c.FirstStop d₁ err way m) : c.FirstStop d err (before.length :: way) m := by
  have hi : (c.inside d)[before.length]? = some d₁ := by simp [hinside]
  refine ⟨.inside hi h.reaches, h.stops, fun way' m' hreaches hstop hlex => ?_⟩
  cases hreaches with
  | here => simp [hd] at hstop
  | @inside _ d' _ j way' hj hreaches =>
    cases hlex with
    | rel hlt =>
      have hmem : d' ∈ before := by
        rw [hinside, List.getElem?_append_left hlt] at hj
        exact List.mem_of_getElem? hj
      simp [hbefore d' hmem way' m' hreaches] at hstop
    | cons hlex =>
      rw [hi, Option.some.injEq] at hj
      subst hj
      exact h.first way' m' hreaches hstop hlex

theorem isRecursive_of_stop {d : Declaration} (h : c.stop d = none) :
    c.isRecursive d.node = false := by
  rw [stop] at h
  by_contra hr
  rw [if_pos (by simpa using hr)] at h
  cases h

/-- A declaration that is not written out has a first stop, where the reason is found, and one that
is written out has no stop at all. -/
theorem firstStop_of_failure (h : c.fault = none) {d : Declaration} (hd : c.Declares d) :
    (∀ err, c.conversion.failure d = some err → ∃ way m, c.FirstStop d err way m) ∧
      (c.conversion.failure d = none → ∀ way m, c.Reaches d way m → c.stop m = none) := by
  -- Only what is not recursive enters what is inside it; elsewhere the conversion stops at once.
  induction (heightLe_enters h hd).acc with
  | intro d _ ih =>
    rw [failure_eq h hd]
    cases hstop : c.stop d with
    | some err =>
      refine ⟨fun err' herr => ⟨[], d, firstStop_here ?_⟩, fun hnone => ?_⟩
      · rwa [Option.some_or, Option.some.injEq, ← Option.some.injEq, ← hstop] at herr
      · simp at hnone
    | none =>
      rw [Option.none_or]
      have hr := isRecursive_of_stop hstop
      have ih' : ∀ d' ∈ c.inside d,
          (∀ err, c.conversion.failure d' = some err → ∃ way m, c.FirstStop d' err way m) ∧
            (c.conversion.failure d' = none → ∀ way m, c.Reaches d' way m → c.stop m = none) :=
        fun d' hd' => ih d' ⟨hr, hd'⟩ (declares_of_mem_inside h hd hd')
      constructor
      · intro err herr
        obtain ⟨before, d₁, after, hinside, hd₁, hbefore⟩ := List.findSome?_eq_some_iff.mp herr
        obtain ⟨way, m, hfirst⟩ := (ih' d₁ (by simp [hinside])).1 err hd₁
        refine ⟨_, m, firstStop_inside hstop hinside (fun d' hd' => ?_) hfirst⟩
        exact (ih' d' (by simp [hinside, hd'])).2 (hbefore d' hd')
      · intro hnone way m hreaches
        cases hreaches with
        | here => exact hstop
        | inside hi hreaches =>
          have hmem := List.mem_of_getElem? hi
          exact (ih' _ hmem).2 (List.findSome?_eq_none_iff.mp hnone _ hmem) _ _ hreaches

/-! ### Cycles -/

/-- Edges of the component graph lead from a declaration back to it. -/
def OnCycle (c : Catalog) (d : Declaration) : Prop := TransGen c.Edge d.node d.node

theorem declares_of_reaches (h : c.fault = none) {d m : Declaration} {way : List ℕ}
    (hd : c.Declares d) (hm : c.Reaches d way m) : c.Declares m := by
  induction hm with
  | here => exact hd
  | inside hi _ ih => exact ih (declares_of_mem_inside h hd (List.mem_of_getElem? hi))

theorem stop_of_onCycle {d : Declaration} (hd : c.Declares d) (hcycle : c.OnCycle d) :
    c.stop d = some (.recursive d.name) := by
  rw [stop, if_pos ((isRecursive_iff hd).mpr hcycle)]

theorem shapeFault_ne_recursive {d : Declaration} {q : QName} :
    c.shapeFault d ≠ some (.recursive q) := by
  intro h
  unfold shapeFault at h
  split at h
  · split at h
    · cases h
    · split_ifs at h
      cases h
    · cases h
  · split at h <;> cases h

theorem onCycle_of_stop {d : Declaration} {q : QName} (hd : c.Declares d)
    (h : c.stop d = some (.recursive q)) : c.OnCycle d ∧ d.name = q := by
  unfold stop at h
  split_ifs at h with hr
  · cases h
    exact ⟨(isRecursive_iff hd).mp hr, rfl⟩
  · exact absurd h shapeFault_ne_recursive

/-- A conversion stops at a declaration that is not on a cycle only because it makes no sense. -/
theorem shapeFault_of_stop {d : Declaration} {err : ConversionError} (hd : c.Declares d)
    (hcycle : ¬c.OnCycle d) (h : c.stop d = some err) : c.shapeFault d = some err := by
  rwa [stop, if_neg fun hr => hcycle ((isRecursive_iff hd).mp hr)] at h

section Element

variable {e : Located Element}

/-- What is named in a refusal is the first declaration on a cycle that is reached. -/
theorem first_onCycle_of_error (h : c.fault = none) (he : c.Declares (.element e)) {q : QName}
    (hq : c.elementTree e = .error (.recursive q)) :
    ∃ way d, c.Reaches (.element e) way d ∧ c.OnCycle d ∧ d.name = q ∧
      ∀ way' d', c.Reaches (.element e) way' d' → c.OnCycle d' → ¬Before way' way := by
  have hfailure : c.conversion.failure (.element e) = some (.recursive q) := by
    show failure (c.elementTree e) = _
    rw [hq]
    rfl
  obtain ⟨way, d, hfirst⟩ := (firstStop_of_failure h he).1 _ hfailure
  obtain ⟨hcycle, hname⟩ := onCycle_of_stop (declares_of_reaches h he hfirst.reaches) hfirst.stops
  refine ⟨way, d, hfirst.reaches, hcycle, hname, fun way' d' hreaches hcycle' => ?_⟩
  refine hfirst.first way' d' hreaches ?_
  rw [stop_of_onCycle (declares_of_reaches h he hreaches) hcycle']
  rfl

/-- An element from which a cycle is reached is refused, as recursive unless something that comes
before makes no sense. -/
theorem error_of_onCycle (h : c.fault = none) (he : c.Declares (.element e)) {way : List ℕ}
    {d : Declaration} (hreaches : c.Reaches (.element e) way d) (hcycle : c.OnCycle d) :
    (∃ q, c.elementTree e = .error (.recursive q)) ∨
      ∃ way' d' err, Before way' way ∧ c.Reaches (.element e) way' d' ∧
        c.shapeFault d' = some err ∧ c.elementTree e = .error err := by
  have hstop := stop_of_onCycle (declares_of_reaches h he hreaches) hcycle
  cases hf : c.conversion.failure (.element e) with
  | none =>
    rw [(firstStop_of_failure h he).2 hf way d hreaches] at hstop
    cases hstop
  | some err =>
    have herror : c.elementTree e = .error err := eq_error_of_failure hf
    obtain ⟨way', m, hfirst⟩ := (firstStop_of_failure h he).1 err hf
    have hdeclares := declares_of_reaches h he hfirst.reaches
    by_cases hm : c.OnCycle m
    · refine .inl ⟨m.name, ?_⟩
      have hrec := stop_of_onCycle hdeclares hm
      rw [hfirst.stops, Option.some.injEq] at hrec
      rw [herror, hrec]
    · refine .inr ⟨way', m, err, ?_, hfirst.reaches, shapeFault_of_stop hdeclares hm hfirst.stops,
        herror⟩
      rcases before_or_eq_or_before way' way with hlt | rfl | hlt
      · exact hlt
      · exact absurd (hfirst.reaches.unique hreaches ▸ hcycle) hm
      · exact absurd hlt (hfirst.first way d hreaches (by rw [hstop]; rfl))

/-- The conversion of an element with a tree reaches no cycle. -/
theorem not_onCycle_of_ok (h : c.fault = none) (he : c.Declares (.element e)) {tree : Tree.Element}
    (htree : c.elementTree e = .ok tree) {way : List ℕ} {d : Declaration}
    (hreaches : c.Reaches (.element e) way d) : ¬c.OnCycle d := by
  intro hcycle
  rcases error_of_onCycle h he hreaches hcycle with ⟨q, hq⟩ | ⟨way', d', err, -, -, -, herr⟩
  · rw [htree] at hq
    cases hq
  · rw [htree] at herr
    cases herr

end Element

end Catalog

namespace SchemaSet

/-- An element of a schema set is refused as recursive exactly because of cycles. What is named is
the first declaration on a cycle that its conversion reaches; if there is one, the element is
refused, and it is refused as recursive unless something before that makes no sense; and the
conversion of an element that has a tree reaches none. -/
theorem recursion_refused (s : SchemaSet) (e : Located Element) (he : .element e ∈ s.nodes) :
    (∀ q, s.elementTree e = .error (.recursive q) → ∃ way d, s.Reaches (.element e) way d ∧
      s.OnCycle d ∧ d.name = q ∧
      ∀ way' d', s.Reaches (.element e) way' d' → s.OnCycle d' → ¬Catalog.Before way' way) ∧
    (∀ way d, s.Reaches (.element e) way d → s.OnCycle d →
      (∃ q, s.elementTree e = .error (.recursive q)) ∨
      ∃ way' d' err, Catalog.Before way' way ∧ s.Reaches (.element e) way' d' ∧
        s.shapeFault d' = some err ∧ s.elementTree e = .error err) ∧
    ∀ tree, s.elementTree e = .ok tree → ∀ way d, s.Reaches (.element e) way d →
      ¬s.OnCycle d := by
  have hf := s.fault_eq_none
  have hd : s.Declares (.element e) := he
  refine ⟨fun q hq => ?_, fun way d hreaches hcycle => ?_, fun tree htree way d hreaches => ?_⟩
  · exact Catalog.first_onCycle_of_error hf hd hq
  · exact Catalog.error_of_onCycle hf hd hreaches hcycle
  · exact Catalog.not_onCycle_of_ok hf hd htree hreaches

theorem recursion_refused_garden : .element gardenTree ∈ garden.nodes ∧
    garden.elementTree gardenTree = .error (.recursive ⟨none, "branch"⟩) ∧
    ∃ way d, garden.Reaches (.element gardenTree) way d ∧ garden.OnCycle d ∧
      d.name = ⟨none, "branch"⟩ := by
  have hmem : .element gardenTree ∈ garden.nodes := Catalog.mem_nodes_of_topLevel (.element rfl)
  have htree : garden.elementTree gardenTree = .error (.recursive ⟨none, "branch"⟩) :=
    eq_error_of_failure (by decide +kernel)
  obtain ⟨way, d, hreaches, hcycle, hname, -⟩ :=
    (recursion_refused garden gardenTree hmem).1 _ htree
  exact ⟨hmem, htree, way, d, hreaches, hcycle, hname⟩

end SchemaSet

end SchemaShapes
