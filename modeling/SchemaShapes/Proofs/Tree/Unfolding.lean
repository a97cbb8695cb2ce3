import SchemaShapes.Proofs.Tree.Declarations

/-! Conversion without a bound. What a particle or a type is written out as depends on the
conversion of the declarations that it leads to and on nothing else. Declarations are nested no
deeper than there are components, so the bound on the depth is never felt, and each declaration is
written out from what the declarations inside it are written out as. -/
namespace SchemaShapes

open Schema

/-- Two conversions write a declaration out alike. -/
def Conversion.Agree (k k' : Conversion) : Declaration → Prop
  | .element e => k.element e = k'.element e
  | .group d => ∀ occurs, k.group occurs d = k'.group occurs d

namespace Catalog

variable {c : Catalog} {k k' : Conversion}

/-! ### What a conversion depends on -/

mutual

theorem convertParticle_congr {place : Place} : (p : Particle) →
    (∀ d ∈ c.declarationsIn place p, k.Agree k' d) →
    c.convertParticle k place p = c.convertParticle k' place p
  | .any _ _, _ => by rw [convertParticle, convertParticle]
  | .element _ e, h => by
    have he : k.element ⟨place, e⟩ = k'.element ⟨place, e⟩ :=
      h (.element ⟨place, e⟩) (by simp [declarationsIn])
    rw [convertParticle, convertParticle, he]
  | .elementRef _ q, h => by
    rw [convertParticle, convertParticle]
    cases hq : c.findElement q with
    | none => rfl
    | some e =>
      have he : k.element e = k'.element e := h (.element e) (by simp [declarationsIn, hq])
      simp only [he]
  | .group ⟨_, _, ps⟩, h => by
    have hps := convertParticles_congr place 0 ps (by rwa [declarationsIn] at h)
    rw [convertParticle, convertParticle, hps]
  | .groupRef occurs q, h => by
    rw [convertParticle, convertParticle]
    cases hq : c.findGroup q with
    | none => rfl
    | some d => exact h (.group d) (by simp [declarationsIn, hq]) occurs

theorem convertParticles_congr (place : Place) (i : ℕ) : (ps : List Particle) →
    (∀ d ∈ c.declarationsFrom place i ps, k.Agree k' d) →
    c.convertParticles k place i ps = c.convertParticles k' place i ps
  | [], _ => by rw [convertParticles, convertParticles]
  | p :: ps, h => by
    simp only [declarationsFrom, List.mem_append] at h
    have hp := convertParticle_congr p fun d hd => h d (.inl hd)
    have hps := convertParticles_congr place (i + 1) ps fun d hd => h d (.inr hd)
    rw [convertParticles, convertParticles, hp, hps]

end

theorem mapM_congr {α β ε : Type} {f g : α → Except ε β} {xs : List α} (h : ∀ x ∈ xs, f x = g x) :
    xs.mapM f = xs.mapM g := by
  induction xs with
  | nil => rfl
  | cons x xs ih =>
    rw [List.mapM_cons, List.mapM_cons, h x (by simp), ih fun y hy => h y (by simp [hy])]

theorem convertContent_congr {ps : List (Located Particle)}
    (h : ∀ p ∈ ps, ∀ d ∈ c.declarationsIn p.place p.value, k.Agree k' d) :
    c.convertContent k ps = c.convertContent k' ps := by
  have hp : ∀ p ∈ ps, c.convertParticle k p.place p.value = c.convertParticle k' p.place p.value :=
    fun p hp => convertParticle_congr p.value (h p hp)
  match ps with
  | [] => rfl
  | [p] => exact hp p (by simp)
  | p :: q :: ps =>
    have hmap := mapM_congr hp
    simp only [convertContent]
    rw [hmap]

theorem convertComplexType_congr {t : Located ComplexType}
    (h : ∀ d ∈ c.declarationsOf t, k.Agree k' d) :
    c.convertComplexType k t = c.convertComplexType k' t := by
  have hcontents : c.convertContents k t = c.convertContents k' t := by
    rw [convertContents, convertContents]
    unfold declarationsOf at h
    split
    · rfl
    · rfl
    · next htext hunknown =>
      rw [convertContent_congr]
      intro p hp d hd
      refine h d ?_
      split
      · next ht => exact absurd ht htext
      · next hu => exact absurd hu hunknown
      · exact List.mem_flatMap.mpr ⟨p, hp, hd⟩
  rw [convertComplexType, convertComplexType, hcontents]

/-! ### Looking deep enough -/

/-- The conversion that looks into elements and groups to a depth. -/
def conversionTo (c : Catalog) (n : ℕ) : Conversion := ⟨c.elementToDepth n, c.groupToDepth n⟩

/-- Looking deeper than declarations are entered from each other changes nothing. -/
theorem conversionTo_agree {n m : ℕ} {d : Declaration} (h : Graph.HeightLe c.Enters n d)
    (hm : n ≤ m) : (c.conversionTo m).Agree (c.conversionTo n) d := by
  induction h generalizing m with
  | @intro n d _ ih =>
    obtain ⟨m, rfl⟩ : ∃ k, m = k + 1 := ⟨m - 1, by omega⟩
    have hinside : c.isRecursive d.node = false → ∀ d' ∈ c.inside d,
        (c.conversionTo m).Agree (c.conversionTo n) d' :=
      fun hr d' hd' => ih d' ⟨hr, hd'⟩ (by omega)
    cases d with
    | element e =>
      show c.elementToDepth (m + 1) e = c.elementToDepth (n + 1) e
      rw [elementToDepth, elementToDepth]
      by_cases hr : c.isRecursive (.element e)
      · rw [if_pos hr, if_pos hr]
      · rw [if_neg hr, if_neg hr]
        cases ht : c.elementType e with
        | simple code => rfl
        | unknown => rfl
        | complex t =>
          have hcomplex : c.convertComplexType (c.conversionTo m) t =
              c.convertComplexType (c.conversionTo n) t := by
            refine convertComplexType_congr fun d' hd' => hinside ?_ d' ?_
            · exact Bool.eq_false_iff.mpr hr
            · rwa [inside, ht]
          rw [conversionTo, conversionTo] at hcomplex
          simp only [hcomplex]
    | group d =>
      intro occurs
      show c.groupToDepth (m + 1) occurs d = c.groupToDepth (n + 1) occurs d
      rw [groupToDepth, groupToDepth]
      by_cases hr : c.isRecursive (.group d)
      · rw [if_pos hr, if_pos hr]
      · rw [if_neg hr, if_neg hr]
        cases hg : d.value.modelGroup with
        | none => rfl
        | some g =>
          have hparticles : c.convertParticles (c.conversionTo m) (d.place.part 0) 0 g.particles =
              c.convertParticles (c.conversionTo n) (d.place.part 0) 0 g.particles := by
            refine convertParticles_congr _ 0 g.particles fun d' hd' => hinside ?_ d' ?_
            · exact Bool.eq_false_iff.mpr hr
            · rwa [inside, hg]
          rw [conversionTo, conversionTo] at hparticles
          simp only [convertModelGroup, hparticles]

/-- What particles are written out as when they are the content of a type. -/
def contentTree (c : Catalog) (particles : List (Located Particle)) : Converted Tree.Particle :=
  c.convertContent c.conversion particles

/-- What the group of a definition is written out as. -/
def groupTree (c : Catalog) (occurs : Occurs) (d : Located GroupDefinition) :
    Converted Tree.Particle :=
  c.conversion.group occurs d

/-- What a model group is written out as. -/
def modelGroupTree (c : Catalog) (occurs : Occurs) (g : Located ModelGroup) :
    Converted Tree.Particle :=
  c.convertModelGroup c.conversion occurs g

/-- An element is written out from what the declarations inside it are written out as. -/
theorem elementTree_eq (h : c.fault = none) {e : Located Element} (he : c.Declares (.element e)) :
    c.elementTree e =
      if c.isRecursive (.element e) then
        .error (.recursive e.value.name)
      else
        match c.elementType e with
        | .simple code => .ok ⟨e.value.name, .simple code, e.value.nillable⟩
        | .complex t =>
          (c.complexTypeTree t).map (⟨e.value.name, .complex ·, e.value.nillable⟩)
        | .unknown => .error (.unknownTypeShape (.element e.value.name)) := by
  have hdeeper : c.elementToDepth (c.places.length + 1) e = c.elementToDepth c.places.length e :=
    conversionTo_agree (heightLe_enters h he) (Nat.le_succ _)
  show c.elementToDepth c.places.length e = _
  rw [← hdeeper, elementToDepth]
  rfl

/-- The group of a definition is written out from what is inside it in the same way. -/
theorem groupTree_eq (h : c.fault = none) {d : Located GroupDefinition}
    (hd : c.Declares (.group d)) (occurs : Occurs) :
    c.groupTree occurs d =
      if c.isRecursive (.group d) then
        .error (.recursive d.value.name)
      else
        match d.value.modelGroup with
        | some g => c.modelGroupTree occurs ⟨d.place.part 0, g⟩
        | none => .error (.unknownGroupKind d.value.name) := by
  have hdeeper : c.groupToDepth (c.places.length + 1) occurs d =
      c.groupToDepth c.places.length occurs d :=
    conversionTo_agree (heightLe_enters h hd) (Nat.le_succ _) occurs
  show c.groupToDepth c.places.length occurs d = _
  rw [← hdeeper, groupToDepth]
  rfl

/-- Several particles are one sequence. -/
theorem contentTree_several {p q : Located Particle} {ps : List (Located Particle)} :
    c.contentTree (p :: q :: ps) = ((p :: q :: ps).mapM c.particleTree).map fun parts =>
      .group .sequence .once (parts.flatMap Tree.Particle.parts) :=
  rfl

theorem convertParticles_eq (place : Place) (i : ℕ) (ps : List Particle) :
    c.convertParticles k place i ps =
      (ps.zipIdx i).mapM fun (p, j) => c.convertParticle k (place.part j) p := by
  induction ps generalizing i with
  | nil =>
    rw [convertParticles]
    rfl
  | cons p ps ih =>
    rw [convertParticles, List.zipIdx_cons, List.mapM_cons, ih]

/-- Writing out is a recursion without a bound, from the elements and the definitions of groups of
a catalog through types, their content, particles and model groups. -/
structure ConversionUnfolds (c : Catalog) : Prop where
  element {e : Located Element} (he : c.Declares (.element e)) : c.elementTree e =
    if c.isRecursive (.element e) then
      .error (.recursive e.value.name)
    else
      match c.elementType e with
      | .simple code => .ok ⟨e.value.name, .simple code, e.value.nillable⟩
      | .complex t => (c.complexTypeTree t).map (⟨e.value.name, .complex ·, e.value.nillable⟩)
      | .unknown => .error (.unknownTypeShape (.element e.value.name))
  complexType (t : Located ComplexType) : c.complexTypeTree t =
    Except.map (⟨c.convertAttributes t, ·, t.value.mixed⟩) (match c.contentType t with
      | .textOnly => .ok (.simple (c.textCode t))
      | .unknown => .error (.unknownTypeShape (.content t.value.name))
      | _ => (c.contentTree (c.content t)).map .complex)
  content (ps : List (Located Particle)) : c.contentTree ps =
    match ps with
    | [] => .ok .empty
    | [p] => c.particleTree p
    | several => (several.mapM c.particleTree).map fun parts =>
      .group .sequence .once (parts.flatMap Tree.Particle.parts)
  particle (p : Located Particle) : c.particleTree p =
    match p.value with
    | .any occurs _ => .ok (.any occurs)
    | .element occurs e => (c.elementTree ⟨p.place, e⟩).map (.element occurs)
    | .elementRef occurs q =>
      match c.findElement q with
      | some e => (c.elementTree e).map (.element occurs)
      | none => .ok .empty
    | .group g => c.modelGroupTree g.occurs ⟨p.place, g⟩
    | .groupRef occurs q =>
      match c.findGroup q with
      | some d => c.groupTree occurs d
      | none => .ok .empty
  group {d : Located GroupDefinition} (hd : c.Declares (.group d)) (occurs : Occurs) :
    c.groupTree occurs d =
    if c.isRecursive (.group d) then
      .error (.recursive d.value.name)
    else
      match d.value.modelGroup with
      | some g => c.modelGroupTree occurs ⟨d.place.part 0, g⟩
      | none => .error (.unknownGroupKind d.value.name)
  modelGroup (occurs : Occurs) (g : Located ModelGroup) : c.modelGroupTree occurs g =
    (g.value.particles.zipIdx.mapM fun (p, i) => c.particleTree ⟨g.place.part i, p⟩).map
      (.group g.value.compositor occurs)

theorem conversionUnfolds (h : c.fault = none) : c.ConversionUnfolds where
  element := elementTree_eq h
  complexType _ := rfl
  content ps := by
    match ps with
    | [] => rfl
    | [_] => rfl
    | _ :: _ :: _ => exact contentTree_several
  particle p := by
    obtain ⟨place, p⟩ := p
    cases p with
    | any => rw [particleTree, convertParticle]
    | element =>
      rw [particleTree, convertParticle]
      rfl
    | elementRef =>
      rw [particleTree, convertParticle]
      rfl
    | group g =>
      cases g
      rw [particleTree, convertParticle]
      rfl
    | groupRef =>
      rw [particleTree, convertParticle]
      rfl
  group := groupTree_eq h
  modelGroup occurs g := by
    rw [modelGroupTree, convertModelGroup, convertParticles_eq]
    rfl

end Catalog

end SchemaShapes
