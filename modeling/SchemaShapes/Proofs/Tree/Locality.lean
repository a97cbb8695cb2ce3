import Mathlib.Data.List.Nodup
import SchemaShapes.Proofs.Catalog.Lookup
import SchemaShapes.Proofs.Catalog.Simulation
import SchemaShapes.Proofs.Tree.Faithful

/-! Locality of content trees. In catalogs that agree, twins are written out alike: what a particle
becomes depends on what its references mean and on whether components on the way are recursive, and
both are the same. So is the shape of the element that a full name selects. -/
namespace SchemaShapes

open Relation (ReflTransGen)
open Schema

namespace Catalog

variable {c c' : Catalog} {R : Reference → Prop}

/-- Both catalogs write a declaration out alike. -/
def WrittenAlike (c c' : Catalog) : Declaration → Declaration → Prop
  | .element e, .element e' => c.elementTree e = c'.elementTree e'
  | .group d, .group d' => ∀ occurs, c.groupTree occurs d = c'.groupTree occurs d'
  | _, _ => False

/-- Whatever the second catalog holds is written out there as its twin is in the first one. -/
def TwinsWrittenAlike (c c' : Catalog) (R : Reference → Prop) (d : Declaration) : Prop :=
  ∀ d', NodeTwins c c' R d.node d'.node → c'.Declares d' → WrittenAlike c c' d d'

theorem particlesAt_cons {place : Place} {i : ℕ} {p : Particle} {ps : List Particle} :
    particlesAt place i (p :: ps) = ⟨place.part i, p⟩ :: particlesAt place (i + 1) ps := rfl

mutual

theorem particleTree_eq (h : Agreement c c' R) {place place' : Place}
    (hplace : SamePlace c c' place place') : (p : Particle) → (Component.particle p).Covered R →
    c'.LeadsInside ⟨place', p⟩ → (∀ d ∈ c.declarationsIn place p, TwinsWrittenAlike c c' R d) →
    c.particleTree ⟨place, p⟩ = c'.particleTree ⟨place', p⟩
  | .any occurs ns, _, _, _ => by
    rw [particleTree, particleTree, convertParticle, convertParticle]
  | .element occurs e, hp, hin, hd => by
    have he : c.elementTree ⟨place, e⟩ = c'.elementTree ⟨place', e⟩ :=
      hd (.element ⟨place, e⟩) (by simp [declarationsIn]) (.element ⟨place', e⟩)
        (.element ⟨rfl, hplace, hp.part .element⟩) (hin _ rfl)
    rw [(conversionUnfolds h.fault).particle, (conversionUnfolds h.fault').particle]
    simp only [he]
  | .elementRef occurs q, hp, _, hd => by
    rw [(conversionUnfolds h.fault).particle, (conversionUnfolds h.fault').particle]
    have hfind := h.findElement (hp.of_uses .elementRef)
    dsimp only
    generalize hq : c.findElement q = o, hq' : c'.findElement q = o' at hfind
    cases hfind with
    | none => rfl
    | @some e e' he =>
      have htrees : c.elementTree e = c'.elementTree e' :=
        hd (.element e) (by simp [declarationsIn, hq]) (.element e') (.element he)
          (mem_nodes_of_topLevel (topLevel_of_findElement hq'))
      simp only [htrees]
  | .group ⟨compositor, occurs, ps⟩, hp, hin, hd => by
    have hg := hp.part .nested
    have hps := particleTrees_eq h hplace 0 ps (fun q hq => hg.part (.particleOfGroup hq))
      (leadsInside_of_mem_particlesAt (hin _ rfl)) (by rwa [declarationsIn] at hd)
    rw [particleTree, particleTree, convertParticle, convertParticle, hps]
  | .groupRef occurs q, hp, _, hd => by
    rw [(conversionUnfolds h.fault).particle, (conversionUnfolds h.fault').particle]
    have hfind := h.findGroup (hp.of_uses .groupRef)
    dsimp only
    generalize hq : c.findGroup q = o, hq' : c'.findGroup q = o' at hfind
    cases hfind with
    | none => rfl
    | @some d d' hd' =>
      exact hd (.group d) (by simp [declarationsIn, hq]) (.group d') (.group hd')
        (mem_nodes_of_topLevel (topLevel_of_findGroup hq')) occurs

theorem particleTrees_eq (h : Agreement c c' R) {place place' : Place}
    (hplace : SamePlace c c' place place') (i : ℕ) : (ps : List Particle) →
    (∀ p ∈ ps, (Component.particle p).Covered R) →
    (∀ p ∈ particlesAt place' i ps, c'.LeadsInside p) →
    (∀ d ∈ c.declarationsFrom place i ps, TwinsWrittenAlike c c' R d) →
    c.convertParticles c.conversion place i ps = c'.convertParticles c'.conversion place' i ps
  | [], _, _, _ => by rw [convertParticles, convertParticles]
  | p :: ps, hps, hin, hd => by
    simp only [declarationsFrom, List.mem_append] at hd
    rw [particlesAt_cons] at hin
    have hfirst : c.convertParticle c.conversion (place.part i) p =
        c'.convertParticle c'.conversion (place'.part i) p :=
      particleTree_eq h (hplace.part i) p (hps p List.mem_cons_self) (hin _ List.mem_cons_self)
        fun d hd' => hd d (.inl hd')
    have hrest := particleTrees_eq h hplace (i + 1) ps
      (fun q hq => hps q (List.mem_cons_of_mem _ hq))
      (fun q hq => hin q (List.mem_cons_of_mem _ hq)) fun d hd' => hd d (.inr hd')
    rw [convertParticles, convertParticles, hfirst, hrest]

end

theorem mapM_eq_of_forall₂ {α β γ ε : Type} {f : α → Except ε γ} {g : β → Except ε γ} {xs : List α}
    {ys : List β} (h : List.Forall₂ (fun x y => f x = g y) xs ys) : xs.mapM f = ys.mapM g := by
  induction h with
  | nil => rfl
  | cons hx _ ih => rw [List.mapM_cons, List.mapM_cons, hx, ih]

theorem contentTree_eq (h : Agreement c c' R) {ps ps' : List (Located Particle)}
    (hps : List.Forall₂ (Twins c c' R .particle) ps ps') (hin : ∀ p ∈ ps', c'.LeadsInside p)
    (hd : ∀ p ∈ ps, ∀ d ∈ c.declarationsIn p.place p.value, TwinsWrittenAlike c c' R d) :
    c.contentTree ps = c'.contentTree ps' := by
  have htrees : List.Forall₂ (fun p p' => c.particleTree p = c'.particleTree p') ps ps' := by
    induction hps with
    | nil => exact .nil
    | @cons p p' ps ps' hp _ ih =>
      refine .cons ?_ (ih (fun q hq => hin q (List.mem_cons_of_mem _ hq))
        fun q hq => hd q (List.mem_cons_of_mem _ hq))
      obtain ⟨place, p⟩ := p
      obtain ⟨place', p'⟩ := p'
      obtain ⟨rfl, hplace, hcovered⟩ := hp
      exact particleTree_eq h hplace p hcovered (hin _ List.mem_cons_self) (hd _ List.mem_cons_self)
  have hmap := mapM_eq_of_forall₂ htrees
  rw [(conversionUnfolds h.fault).content, (conversionUnfolds h.fault').content]
  cases htrees with
  | nil => rfl
  | cons hp htrees =>
    cases htrees with
    | nil => exact hp
    | cons hq htrees => exact congrArg (Except.map _) hmap

theorem complexTypeTree_eq (h : Agreement c c' R) {t t' : Located ComplexType}
    (ht : Twins c c' R .complexType t t') (hin : .complexType t' ∈ c'.nodes)
    (hd : ∀ d ∈ c.declarationsOf t, TwinsWrittenAlike c c' R d) :
    c.complexTypeTree t = c'.complexTypeTree t' := by
  have hviews := h.sameViews ht
  have hattributes : c.convertAttributes t = c'.convertAttributes t' := by
    rw [convertAttributes, convertAttributes, hviews.attributeUses]
  rw [(conversionUnfolds h.fault).complexType, (conversionUnfolds h.fault').complexType,
    hattributes, ← hviews.contentType, ← hviews.textCode, ← ht.value]
  split
  · rfl
  · rfl
  · next htext hunknown =>
    have hcontent : c.contentTree (c.content t) = c'.contentTree (c'.content t') := by
      refine contentTree_eq h hviews.content (leadsInside_of_mem_content h.fault' hin)
        fun p hp d hd' => hd d ?_
      rw [declarationsOf_eq htext hunknown]
      exact List.mem_flatMap.mpr ⟨p, hp, hd'⟩
    rw [hcontent]

theorem writtenAlike_element (h : Agreement c c' R) {e e' : Located Element}
    (he : Twins c c' R .element e e') (hin : .element e ∈ c.nodes) (hin' : .element e' ∈ c'.nodes)
    (hinside : c.isRecursive (.element e) = false →
      ∀ d ∈ c.inside (.element e), TwinsWrittenAlike c c' R d) :
    c.elementTree e = c'.elementTree e' := by
  rw [elementTree_eq h.fault hin, elementTree_eq h.fault' hin', ← he.value,
    ← isRecursive_eq h (.element he) hin hin']
  by_cases hr : c.isRecursive (.element e)
  · rw [if_pos hr, if_pos hr]
  · rw [if_neg hr, if_neg hr]
    have htypes := h.elementType he
    generalize ht : c.elementType e = type, ht' : c'.elementType e' = type' at htypes
    cases htypes with
    | simple code => rfl
    | unknown => rfl
    | complex htypes =>
      have htree := complexTypeTree_eq h htypes (mem_nodes_of_edge hin' (.type ht'))
        fun d hd => hinside (Bool.eq_false_iff.mpr hr) d (by rwa [inside, ht])
      simp only [htree]

theorem writtenAlike_group (h : Agreement c c' R) {d d' : Located GroupDefinition}
    (hd : Twins c c' R .group d d') (hin : .group d ∈ c.nodes) (hin' : .group d' ∈ c'.nodes)
    (hinside : c.isRecursive (.group d) = false →
      ∀ d₁ ∈ c.inside (.group d), TwinsWrittenAlike c c' R d₁) (occurs : Occurs) :
    c.groupTree occurs d = c'.groupTree occurs d' := by
  rw [groupTree_eq h.fault hin, groupTree_eq h.fault' hin', ← hd.value,
    ← isRecursive_eq h (.group hd) hin hin']
  by_cases hr : c.isRecursive (.group d)
  · rw [if_pos hr, if_pos hr]
  · rw [if_neg hr, if_neg hr]
    cases hg : d.value.modelGroup with
    | none => rfl
    | some g =>
      have hg' : d'.value.modelGroup = some g := by rw [← hd.value, hg]
      have hcovered := hd.covered.part (.definition hg)
      have htrees := particleTrees_eq h (hd.place.part 0) 0 g.particles
        (fun p hp => hcovered.part (.particleOfGroup hp))
        (leadsInside_of_mem_particlesAt (mem_nodes_of_edge hin' (.definition hg')))
        fun d₁ hd₁ => hinside (Bool.eq_false_iff.mpr hr) d₁ (by rwa [inside, hg])
      simp only [modelGroupTree, convertModelGroup, htrees]

/-- Twins are written out alike, for what is inside them is. -/
theorem twinsWrittenAlike (h : Agreement c c' R) {d : Declaration} (hin : c.Declares d) :
    TwinsWrittenAlike c c' R d := by
  induction (heightLe_enters h.fault hin).acc with
  | intro d _ ih =>
    have hinside : c.isRecursive d.node = false → ∀ d₁ ∈ c.inside d, TwinsWrittenAlike c c' R d₁ :=
      fun hr d₁ hd₁ => ih d₁ ⟨hr, hd₁⟩ (declares_of_mem_inside h.fault hin hd₁)
    intro d' hd hin'
    cases d with
    | element e =>
      cases d' with
      | element e' =>
        cases hd with
        | element he => exact writtenAlike_element h he hin hin' hinside
      | group d' => cases hd
    | group d =>
      cases d' with
      | element e' => cases hd
      | group d' =>
        cases hd with
        | group hd => exact writtenAlike_group h hd hin hin' hinside

/-- An element has the same tree in two catalogs without faults, or none for the same reason, if
what is in reach of its name means the same in both. -/
theorem elementTree_eq_of_reach (hf : c.fault = none) (hf' : c'.fault = none) {q : QName}
    (h : ∀ r, ReflTransGen c.RefersTo ⟨.element, q⟩ r → c.meaning r = c'.meaning r)
    {e : Located Element} (he : c.findElement q = some e) :
    ∃ e', c'.findElement q = some e' ∧ c.elementTree e = c'.elementTree e' := by
  have hagree := Agreement.of_reach hf hf' h
  obtain ⟨e', he', htwins⟩ := exists_of_rel (hagree.findElement .refl) he
  exact ⟨e', he', twinsWrittenAlike hagree (d := .element e)
    (mem_nodes_of_topLevel (topLevel_of_findElement he)) (.element e') (.element htwins)
    (mem_nodes_of_topLevel (topLevel_of_findElement he'))⟩

/-! ### Selection by full names -/

end Catalog

/-- The selector of a full name; the empty text stands for no namespace. -/
def Tree.Selector.ofName (q : QName) : Tree.Selector := ⟨some q.name, some (q.ns.getD "")⟩

/-- A name with the empty text for a namespace would be taken for one without a namespace. -/
def QName.Proper (q : QName) : Prop := q.ns ≠ some ""

theorem Tree.Selector.accepts_ofName_iff {q q' : QName} (hq : q.Proper) (hq' : q'.Proper) :
    (Tree.Selector.ofName q).accepts q' ↔ q' = q := by
  obtain ⟨ns, name⟩ := q
  obtain ⟨ns', name'⟩ := q'
  simp only [QName.Proper] at hq hq'
  simp only [accepts, ofName, QName.inNamespace, Option.all_some, Bool.and_eq_true,
    decide_eq_true_eq, beq_iff_eq, QName.mk.injEq]
  constructor
  · rintro ⟨rfl, hns⟩
    refine ⟨?_, rfl⟩
    cases ns <;> cases ns' <;> simp_all
  · rintro ⟨rfl, rfl⟩
    exact ⟨rfl, rfl⟩

namespace Catalog

variable {c c' : Catalog}

/-- Its full name selects an element. -/
theorem select_ofName (hproper : ∀ e ∈ c.elements, e.name.Proper) {q : QName} {e : Located Element}
    (he : c.findElement q = some e) : c.select (.ofName q) = .ok e := by
  obtain ⟨-, rfl⟩ := findElement_eq_some he
  have hglobal : ∀ x ∈ c.globalElements, x.value.name.Proper := by
    intro x hx
    exact hproper _ (findElement_eq_some (mem_globalElements_iff.mp hx)).1
  have hmem : e ∈ c.globalElements := mem_globalElements_iff.mpr he
  have hfilter : c.globalElements.filter
      ((Tree.Selector.ofName e.value.name).accepts ·.value.name) = [e] := by
    have hnodup : c.globalElements.Nodup := List.Nodup.of_map _ nodup_globalElements
    refine List.perm_singleton.mp ((List.perm_ext_iff_of_nodup (hnodup.filter _)
      (List.nodup_singleton e)).mpr fun x => ?_)
    rw [List.mem_filter, List.mem_singleton]
    constructor
    · rintro ⟨hx, haccepts⟩
      rw [Tree.Selector.accepts_ofName_iff (hglobal e hmem) (hglobal x hx)] at haccepts
      have hfound := mem_globalElements_iff.mp hx
      rw [haccepts, he] at hfound
      exact (Option.some.inj hfound).symm
    · rintro rfl
      exact ⟨hmem, (Tree.Selector.accepts_ofName_iff (hglobal x hmem) (hglobal x hmem)).mpr rfl⟩
  unfold select
  dsimp only
  split
  · next hnil =>
    rw [hnil] at hmem
    cases hmem
  · rw [hfilter]

theorem tree_ofName (hproper : ∀ e ∈ c.elements, e.name.Proper) {q : QName} {e : Located Element}
    (he : c.findElement q = some e) :
    c.tree (.ofName q) = (c.elementTree e).mapError .conversion := by
  rw [tree, select_ofName hproper he]
  rfl

end Catalog

namespace SchemaSet

/-- An element has the same tree in both sets, or none for the same reason, and its full name leads
to the same shape. -/
def SameResults (s s' : SchemaSet) (q : QName) : Prop :=
  ∃ e e', s.findElement q = some e ∧ s'.findElement q = some e' ∧
    s.elementTree e = s'.elementTree e' ∧ s.infer (.ofName q) = s'.infer (.ofName q)

theorem sameResults_of_reach {s s' : SchemaSet} (hproper : ∀ e ∈ s.elements, e.name.Proper)
    (hproper' : ∀ e ∈ s'.elements, e.name.Proper) {q : QName} {e : Located Element}
    (he : s.findElement q = some e)
    (h : ∀ r, ReflTransGen s.RefersTo ⟨.element, q⟩ r → s.meaning r = s'.meaning r) :
    SameResults s s' q := by
  obtain ⟨e', he', htree⟩ :=
    Catalog.elementTree_eq_of_reach s.fault_eq_none s'.fault_eq_none h he
  refine ⟨e, e', he, he', htree, ?_⟩
  rw [infer, infer, Catalog.tree_ofName hproper he, Catalog.tree_ofName hproper' he', htree]

end SchemaSet

end SchemaShapes
