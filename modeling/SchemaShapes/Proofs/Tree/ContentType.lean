import SchemaShapes.Proofs.Catalog.SimpleContent
import SchemaShapes.Proofs.Tree.Extension
import SchemaShapes.Proofs.Tree.Refusal

/-! What content may hold. Content that is made of particles has something in it exactly if an
element, a wildcard or a reference to a group is written in its own particle or in one that it
inherits, at any depth; with the flag for mixed content this decides what the content may hold.
Simple content is text if the chain of its bases ends in text. A type is refused for its own sake
exactly if its content makes no sense, and otherwise only for the sake of what is inside it. -/
namespace SchemaShapes

open Schema

/-! ### Particles with something in them -/

namespace Schema

/-- An element, a wildcard or a reference to a group is in a particle, at any depth. -/
inductive Particle.HasLeaf : Particle → Prop
  | element {occurs : Occurs} {e : Element} : HasLeaf (.element occurs e)
  | elementRef {occurs : Occurs} {q : QName} : HasLeaf (.elementRef occurs q)
  | any {occurs : Occurs} {ns : Option String} : HasLeaf (.any occurs ns)
  | groupRef {occurs : Occurs} {q : QName} : HasLeaf (.groupRef occurs q)
  | group {g : ModelGroup} {p : Particle} (hp : p ∈ g.particles) (h : HasLeaf p) :
    HasLeaf (.group g)

theorem allEmpty_iff {ps : List Particle} : allEmpty ps = true ↔ ∀ p ∈ ps, p.isEmpty = true := by
  induction ps with
  | nil => simp [allEmpty]
  | cons p ps ih => simp [allEmpty, ih]

theorem Particle.HasLeaf.isEmpty_eq_false {p : Particle} (h : p.HasLeaf) : p.isEmpty = false := by
  induction h with
  | @group g p hp _ ih =>
    obtain ⟨compositor, occurs, ps⟩ := g
    rw [Bool.eq_false_iff, Particle.isEmpty, ModelGroup.isEmpty, ne_eq, allEmpty_iff]
    intro hall
    rw [hall p hp] at ih
    cases ih
  | _ => rfl

mutual

theorem Particle.hasLeaf_of_isEmpty : (p : Particle) → p.isEmpty = false → p.HasLeaf
  | .element _ _, _ => .element
  | .elementRef _ _, _ => .elementRef
  | .any _ _, _ => .any
  | .groupRef _ _, _ => .groupRef
  | .group ⟨_, _, ps⟩, h => by
    rw [Particle.isEmpty, ModelGroup.isEmpty] at h
    obtain ⟨p, hp, hleaf⟩ := exists_hasLeaf_of_allEmpty ps h
    exact .group hp hleaf

theorem exists_hasLeaf_of_allEmpty : (ps : List Particle) → allEmpty ps = false →
    ∃ p ∈ ps, p.HasLeaf
  | [], h => by cases h
  | p :: ps, h => by
    rw [allEmpty, Bool.and_eq_false_iff] at h
    rcases h with h | h
    · exact ⟨p, List.mem_cons_self, p.hasLeaf_of_isEmpty h⟩
    · obtain ⟨q, hq, hleaf⟩ := exists_hasLeaf_of_allEmpty ps h
      exact ⟨q, List.mem_cons_of_mem _ hq, hleaf⟩

end

end Schema

namespace Catalog

variable {c : Catalog} {t u : Located ComplexType}

/-! ### Effective content -/

/-- A particle belongs to the content of a type: it is its own one, or the type extends another one
whose content it belongs to. -/
inductive EffectiveParticle (c : Catalog) : Located ComplexType → Particle → Prop
  | own {t : Located ComplexType} {p : Particle} (hp : t.value.ownParticle = some p) :
    EffectiveParticle c t p
  | inherited {t u : Located ComplexType} {p : Particle} (htu : c.Extends t u)
    (hp : EffectiveParticle c u p) : EffectiveParticle c t p

/-- Something is in the content of a type. -/
def HasChildren (c : Catalog) (t : Located ComplexType) : Prop :=
  ∃ p, c.EffectiveParticle t p ∧ p.HasLeaf

theorem ownContent_ne_nil_iff :
    ownContent t ≠ [] ↔ ∃ p, t.value.ownParticle = some p ∧ p.HasLeaf := by
  unfold ownContent
  cases t.value.ownParticle with
  | none => simp
  | some p =>
    rw [Option.filter_some]
    cases hp : p.isEmpty with
    | true =>
      have hleaf : ¬p.HasLeaf := fun h => by simp [h.isEmpty_eq_false] at hp
      simp [hleaf]
    | false => simp [p.hasLeaf_of_isEmpty hp]

theorem Extends.derivesFrom (h : c.Extends t u) : c.DerivesFrom t u := by
  obtain ⟨base, own, hcontent, hu⟩ := h
  exact ⟨base, (base_of_complex hcontent).1, namedType_eq_complex_iff.mp hu⟩

/-- A type with content extends another one that has some, or has content of its own. -/
theorem content_ne_nil_cases (hf : c.fault = none) (h : c.content t ≠ []) :
    (∃ u, c.Extends t u ∧ c.content u ≠ []) ∨ ownContent t ≠ [] := by
  rw [content_eq hf] at h
  split at h
  · exact absurd rfl h
  · next base own hcontent =>
    split at h
    · next u hu =>
      by_cases hbase : c.content u = []
      · rw [hbase, List.nil_append] at h
        exact .inr h
      · exact .inl ⟨u, ⟨base, own, hcontent, hu⟩, hbase⟩
    · exact .inr h
  · exact .inr h

theorem content_ne_nil_of_ownContent (hf : c.fault = none) (h : ownContent t ≠ []) :
    c.content t ≠ [] := by
  rw [content_eq hf]
  split
  · next hcontent =>
    obtain ⟨p, hp, -⟩ := ownContent_ne_nil_iff.mp h
    rw [(base_of_simple hcontent).2] at hp
    cases hp
  · exact List.append_ne_nil_of_right_ne_nil _ h
  · exact h

/-- The content of a type is not empty exactly if something is in it, at any depth of its own
particle or of an inherited one. -/
theorem content_ne_nil_iff (hf : c.fault = none) : c.content t ≠ [] ↔ c.HasChildren t := by
  constructor
  · intro h
    -- What is inherited comes from the base, so the induction is on derivation.
    induction t using (derivesFrom_wellFounded hf).induction with
    | _ t ih =>
      rcases content_ne_nil_cases hf h with ⟨u, htu, hu⟩ | hown
      · obtain ⟨p, hp, hleaf⟩ := ih u htu.derivesFrom hu
        exact ⟨p, .inherited htu hp, hleaf⟩
      · obtain ⟨p, hp, hleaf⟩ := ownContent_ne_nil_iff.mp hown
        exact ⟨p, .own hp, hleaf⟩
  · rintro ⟨p, hp, hleaf⟩
    induction hp with
    | own hp => exact content_ne_nil_of_ownContent hf (ownContent_ne_nil_iff.mpr ⟨_, hp, hleaf⟩)
    | inherited htu _ ih =>
      rw [htu.content_eq hf]
      exact List.append_ne_nil_of_left_ne_nil (ih hleaf) _

/-! ### Content made of particles -/

/-- What content may hold is decided by the flag for mixed content and by whether something is in
it. Without anything in it, it is text or nothing. -/
structure ClassifiedByChildren (c : Catalog) (t : Located ComplexType) : Prop where
  mixed : c.contentType t = .mixed ↔ t.value.mixed = true ∧ c.HasChildren t
  textOnly : c.contentType t = .textOnly ↔ t.value.mixed = true ∧ ¬c.HasChildren t
  elementOnly : c.contentType t = .elementOnly ↔ t.value.mixed = false ∧ c.HasChildren t
  empty : c.contentType t = .empty ↔ t.value.mixed = false ∧ ¬c.HasChildren t
  content : c.content t = [] ↔ c.contentType t = .textOnly ∨ c.contentType t = .empty

theorem contentTypeOfParticles_eq (mixed : Bool) (ps : List (Located Particle)) :
    contentTypeOfParticles mixed ps =
      if ps = [] then if mixed then .textOnly else .empty
      else if mixed then .mixed else .elementOnly := by
  cases mixed <;> cases ps <;> rfl

theorem classifiedByChildren (hf : c.fault = none)
    (h : c.contentType t = contentTypeOfParticles t.value.mixed (c.content t)) :
    c.ClassifiedByChildren t := by
  have hchildren : c.HasChildren t ↔ c.content t ≠ [] := (content_ne_nil_iff hf).symm
  rw [contentTypeOfParticles_eq] at h
  constructor <;> rw [h] <;> split_ifs <;> simp_all

/-- Complex content is derived from what turns out to be a simple type. -/
def ComplexOverSimple (c : Catalog) (t : Located ComplexType) : Prop :=
  ∃ method base particle code,
    t.value.content = .complex method base particle ∧ c.namedType base = .simple code

theorem contentType_of_complexOverSimple (hf : c.fault = none) (h : c.ComplexOverSimple t) :
    c.contentType t = .unknown := by
  obtain ⟨method, base, particle, code, hcontent, hcode⟩ := h
  rw [contentType_eq hf, hcontent]
  simp only [hcode]

theorem Extends.not_hasSimpleContent (h : c.Extends t u) : ¬t.value.HasSimpleContent := by
  obtain ⟨base, own, hcontent, -⟩ := h
  rintro ⟨_, _, _, hsimple⟩
  rw [hcontent] at hsimple
  cases hsimple

theorem Extends.not_complexOverSimple (h : c.Extends t u) : ¬c.ComplexOverSimple t := by
  obtain ⟨base, own, hcontent, hu⟩ := h
  rintro ⟨_, _, _, _, hcontent', hcode⟩
  rw [hcontent] at hcontent'
  cases hcontent'
  rw [hu] at hcode
  cases hcode

/-- Where bases mean something, content that is neither simple nor derived from a simple type is
made of particles. -/
theorem contentType_eq_of_complex (hf : c.fault = none) (ht : .complexType t ∈ c.nodes)
    (hsimple : ¬t.value.HasSimpleContent) (hcomplex : ¬c.ComplexOverSimple t) :
    c.contentType t = contentTypeOfParticles t.value.mixed (c.content t) := by
  rw [contentType_eq hf]
  cases hcontent : t.value.content with
  | particle p => rfl
  | simple method base type => exact absurd ⟨method, base, type, hcontent⟩ hsimple
  | complex method base particle =>
    have hmeans : c.namedType base ≠ .unknown :=
      (holds_of_mem_nodes ht).resolves hf (.baseOfComplex (base_of_complex hcontent).1)
    cases hu : c.namedType base with
    | complex u => simp only [hu]
    | simple code => exact absurd ⟨method, base, particle, code, hcontent, hu⟩ hcomplex
    | unknown => exact absurd hu hmeans

/-! ### Refusals -/

/-- A type is refused for its own sake, whatever becomes of the elements and groups inside it. -/
def RefusedItself (c : Catalog) (t : Located ComplexType) : Prop :=
  ∀ k, c.convertComplexType k t = .error (.unknownTypeShape (.content t.value.name))

/-- The conversion that refuses nothing. -/
def lenient : Conversion where
  element e := .ok ⟨e.value.name, .simple .string, false⟩
  group _ _ := .ok .empty

theorem failure_lenient (d : Declaration) : lenient.failure d = none := by
  cases d <;> rfl

theorem refusedItself_iff : c.RefusedItself t ↔ c.contentType t = .unknown := by
  constructor
  · intro h
    have hfailure := failure_convertComplexType (c := c) (k := lenient) (fun _ _ => rfl) t
    have hnone : (c.declarationsOf t).findSome? lenient.failure = none :=
      List.findSome?_eq_none_iff.mpr fun d _ => failure_lenient d
    rw [h lenient, hnone, Option.or_none] at hfailure
    by_contra hknown
    rw [if_neg hknown] at hfailure
    cases hfailure
  · intro h k
    rw [convertComplexType, convertContents, h]
    rfl

/-- A type whose content makes sense is refused only because a declaration inside it is. -/
theorem exists_failure_of_error (h : c.contentType t ≠ .unknown) {err : Tree.ConversionError}
    (herr : c.complexTypeTree t = .error err) :
    ∃ d ∈ c.declarationsOf t, c.conversion.failure d = some err := by
  have hfailure := failure_convertComplexType (c := c) (c.uniform_conversionTo c.places.length) t
  rw [if_neg h, Option.none_or] at hfailure
  refine List.exists_of_findSome?_eq_some (hfailure.symm.trans ?_)
  show failure (c.complexTypeTree t) = some err
  rw [herr]
  rfl

end Catalog

namespace SchemaSet

/-- What the content of a type of a schema set may hold. If it is neither simple nor derived from a
simple type, the flag for mixed content and what is in the content decide, and there are no
particles exactly if it is text only or empty. Simple content is text if the chain of its bases ends
in text and makes no sense otherwise, and neither does complex content that is derived from a simple
type. A type is refused for its own sake exactly if its content makes no sense; any other refusal is
that of a declaration inside. -/
theorem content_classified (s : SchemaSet) {t : Located ComplexType}
    (ht : .complexType t ∈ s.nodes) :
    (¬t.value.HasSimpleContent → ¬s.ComplexOverSimple t → s.ClassifiedByChildren t) ∧
    (t.value.HasSimpleContent → (∃ ts e, s.TextChain t ts e) ∧
      ∀ ts e, s.TextChain t ts e → (s.contentType t = .textOnly ↔ e.IsText s.toCatalog) ∧
        (¬e.IsText s.toCatalog → s.contentType t = .unknown)) ∧
    (s.ComplexOverSimple t → s.contentType t = .unknown) ∧
    (s.RefusedItself t ↔ s.contentType t = .unknown) ∧
    (s.contentType t ≠ .unknown → ∀ err, s.complexTypeTree t = .error err →
      ∃ d ∈ s.declarationsOf t, s.conversion.failure d = some err) := by
  have hf := s.fault_eq_none
  refine ⟨fun hsimple hcomplex => ?_, fun hsimple => ⟨Catalog.exists_textChain hf ht, ?_⟩,
    Catalog.contentType_of_complexOverSimple hf, Catalog.refusedItself_iff,
    fun hknown err herr => Catalog.exists_failure_of_error hknown herr⟩
  · exact Catalog.classifiedByChildren hf (Catalog.contentType_eq_of_complex hf ht hsimple hcomplex)
  · intro ts e hchain
    have htext := hchain.contentType_eq_textOnly_iff hf
    exact ⟨htext, fun hend => Catalog.contentType_of_hasSimpleContent hf hsimple (mt htext.mp hend)⟩

/-- Blank paper has two groups that hold nothing. -/
def blank : Located ComplexType :=
  ⟨.top (.complexType 0), ⟨some ⟨none, "blank"⟩, false,
    .particle (some (.group ⟨.sequence, .once, [.group ⟨.choice, .once, []⟩,
      .group ⟨.all, .once, []⟩]⟩)), []⟩⟩

/-- A notice is blank paper with text. -/
def notice : Located ComplexType :=
  ⟨.top (.complexType 1), ⟨some ⟨none, "notice"⟩, true,
    .complex .extension ⟨none, "blank"⟩ none, []⟩⟩

/-- A headline has the text of a notice. -/
def headline : Located ComplexType :=
  ⟨.top (.complexType 2), ⟨some ⟨none, "headline"⟩, false,
    .simple .extension ⟨none, "notice"⟩ none, []⟩⟩

/-- A form is blank paper with anything behind the groups. -/
def form : Located ComplexType :=
  ⟨.top (.complexType 3), ⟨some ⟨none, "form"⟩, false,
    .complex .extension ⟨none, "blank"⟩ (some (.group ⟨.sequence, .once,
      [.group ⟨.sequence, .once, [.any .once none]⟩]⟩)), []⟩⟩

/-- A signed form has text in it. -/
def signedForm : Located ComplexType :=
  ⟨.top (.complexType 4), ⟨some ⟨none, "signedForm"⟩, true,
    .complex .extension ⟨none, "form"⟩ none, []⟩⟩

/-- A caption has the text of a form, which has none. -/
def caption : Located ComplexType :=
  ⟨.top (.complexType 5), ⟨some ⟨none, "caption"⟩, false,
    .simple .restriction ⟨none, "form"⟩ none, []⟩⟩

def stationery : SchemaSet where
  documents := [⟨none, { Document.empty none with
    complexTypes := [blank.value, notice.value, headline.value, form.value,
      signedForm.value, caption.value] }⟩]
  fault_eq_none := by decide +kernel

/-- A signed form has what is in a form, a headline is the text of a notice, and a caption is
refused. -/
theorem content_classified_stationery :
    stationery.HasChildren signedForm ∧ stationery.contentType signedForm = .mixed ∧
    stationery.contentType notice = .textOnly ∧
    stationery.contentType headline = .textOnly ∧ stationery.RefusedItself caption := by
  have mem : ∀ i t, stationery.complexTypes[i]? = some t →
      .complexType ⟨.top (.complexType i), t⟩ ∈ stationery.nodes :=
    fun i t h => Catalog.mem_nodes_of_topLevel (.complexType h)
  have hform : stationery.Extends signedForm form := ⟨_, _, rfl, rfl⟩
  have hblank : stationery.Extends notice blank := ⟨_, _, rfl, rfl⟩
  have hchildren : stationery.HasChildren signedForm :=
    ⟨_, .inherited hform (.own rfl), .group List.mem_cons_self (.group List.mem_cons_self .any)⟩
  have hchildless : ¬stationery.HasChildren notice := by
    have hnil : (stationery.content notice).isEmpty = true := by decide +kernel
    rw [← Catalog.content_ne_nil_iff stationery.fault_eq_none, not_not]
    exact List.isEmpty_iff.mp hnil
  obtain ⟨hsigned, -⟩ := content_classified stationery (mem 4 signedForm.value rfl)
  obtain ⟨hnotice, -⟩ := content_classified stationery (mem 1 notice.value rfl)
  obtain ⟨-, hheadline, -⟩ := content_classified stationery (mem 2 headline.value rfl)
  obtain ⟨-, hcaption, -, hrefused, -⟩ := content_classified stationery (mem 5 caption.value rfl)
  have htext : stationery.contentType notice = .textOnly :=
    (hnotice hblank.not_hasSimpleContent hblank.not_complexOverSimple).textOnly.mpr
      ⟨rfl, hchildless⟩
  have hmixed : stationery.contentType signedForm = .mixed :=
    (hsigned hform.not_hasSimpleContent hform.not_complexOverSimple).mixed.mpr ⟨rfl, hchildren⟩
  obtain ⟨-, hends⟩ := hheadline ⟨_, _, _, rfl⟩
  have hchain : stationery.TextChain headline [headline] (.complex notice) :=
    .onward rfl rfl (.complex hblank.not_hasSimpleContent)
  obtain ⟨-, hends'⟩ := hcaption ⟨_, _, _, rfl⟩
  have hchain' : stationery.TextChain caption [caption] (.complex form) :=
    .onward rfl rfl (.complex (by rintro ⟨_, _, _, h⟩; cases h))
  have hform' : ¬stationery.contentType form = .textOnly := by decide +kernel
  exact ⟨hchildren, hmixed, htext, (hends _ _ hchain).1.mpr htext,
    hrefused.mpr ((hends' _ _ hchain').2 hform')⟩

end SchemaSet

end SchemaShapes
