import SchemaShapes.Proofs.Schema.Sources
import SchemaShapes.Proofs.Tree.Extension

/-! Content of types that extend another one and add nothing to it. Such a type has the particles of
its base, however long the chain of extensions to it is, but it is its own flag that says whether it
is mixed. So it has the content of a base that is made of particles, and it loses the text of one
that holds text only. -/
namespace SchemaShapes

open Schema
open Relation (TransGen)

namespace Catalog

variable {c : Catalog} {t u b : Located ComplexType}

/-! ### Content by particles -/

/-- What content may hold follows from the particles and the flag of its type, unless its base makes
it text or makes no sense. -/
theorem contentType_eq_ofParticles (hf : c.fault = none) (htext : c.contentType t ≠ .textOnly)
    (hknown : c.contentType t ≠ .unknown) :
    c.contentType t = contentTypeOfParticles t.value.mixed (c.content t) := by
  have hcontent := contentType_eq hf t
  split at hcontent
  · next method base type hsimple =>
    split at hcontent
    · exact absurd hcontent htext
    · split at hcontent
      · exact absurd hcontent htext
      · exact absurd hcontent hknown
    · exact absurd hcontent hknown
  · split at hcontent
    · exact hcontent
    · exact absurd hcontent hknown
  · exact hcontent

/-- Types that are made of particles have mixed content exactly if their flag says so. -/
theorem mixed_eq_of_particles (hf : c.fault = none) (htext : c.contentType t ≠ .textOnly)
    (hknown : c.contentType t ≠ .unknown) :
    t.value.mixed = decide (c.contentType t = .mixed) := by
  have hparticles := contentType_eq_ofParticles hf htext hknown
  generalize t.value.mixed = mixed, c.content t = ps at hparticles
  rw [hparticles] at htext ⊢
  cases mixed with
  | false => cases ps <;> rfl
  | true =>
    cases ps with
    | nil => exact absurd rfl htext
    | cons p ps => rfl

/-! ### Extensions that add nothing -/

/-- A type extends another one without a particle of its own, groups without content aside, and
without a flag that makes it mixed. -/
structure AddsNothing (c : Catalog) (t u : Located ComplexType) : Prop where
  extend : c.Extends t u
  own : ownContent t = []
  mixed : t.value.mixed = false

/-- The type that another one extends and adds nothing to. -/
def bareBase? (c : Catalog) (t : Located ComplexType) : Option (Located ComplexType) :=
  match t.value.content, t.value.mixed, ownContent t with
  | .complex .extension base _, false, [] =>
    match c.namedType base with
    | .complex u => some u
    | _ => none
  | _, _, _ => none

theorem addsNothing_of_bareBase? (h : c.bareBase? t = some u) : c.AddsNothing t u := by
  unfold bareBase? at h
  split at h
  · next base own hcontent hmixed hown =>
    split at h
    · next hu =>
      cases h
      exact ⟨⟨base, own, hcontent, hu⟩, hown, hmixed⟩
    · cases h
  · cases h

namespace AddsNothing

theorem content_eq (hf : c.fault = none) (h : c.AddsNothing t u) : c.content t = c.content u := by
  rw [h.extend.content_eq hf, h.own, List.append_nil]

theorem contentType_eq (hf : c.fault = none) (h : c.AddsNothing t u) :
    c.contentType t = contentTypeOfParticles false (c.content t) := by
  rw [h.extend.contentType_eq hf, h.mixed]

/-- The particles at the end of a chain are those at its start. -/
theorem content_eq_of_chain (hf : c.fault = none) (h : TransGen c.AddsNothing t b) :
    c.content t = c.content b := by
  induction h with
  | single h => exact h.content_eq hf
  | tail _ h ih => exact ih.trans (h.content_eq hf)

/-- A type that adds nothing is made of particles, whatever its base is. -/
theorem complexTypeTree_eq (hf : c.fault = none) (h : c.AddsNothing t u) :
    c.complexTypeTree t = (c.contentTree (c.content t)).map
      (⟨c.convertAttributes t, .complex ·, false⟩) := by
  have htype := h.contentType_eq hf
  have htext : c.contentType t ≠ .textOnly := by
    rw [htype]
    cases c.content t <;> exact ContentType.noConfusion
  have hknown : c.contentType t ≠ .unknown := by
    rw [htype]
    exact contentTypeOfParticles_ne_unknown _ _
  rw [complexTypeTree_of_particles hf htext hknown, h.mixed]

end AddsNothing

end Catalog

namespace SchemaSet

/-- A type that adds nothing to another one, by one extension or by a chain of them, is written out
exactly if the particles of the base are, has these as its contents and is not mixed. If the base is
made of particles, both have the same contents or fail alike, and the base has the same flag unless
its content is mixed. Of a base that holds only text the type keeps no content. A type is without
the flag if neither it nor its complex content is declared with one. -/
theorem bare_extension_contents (s : SchemaSet) {t b : Located ComplexType}
    (h : TransGen s.AddsNothing t b) :
    (s.complexTypeTree t).map (·.contents) = (s.contentTree (s.content b)).map .complex ∧
    (∀ d, s.complexTypeTree t = .ok d → d.mixed = false) ∧
    (s.contentType b ≠ .textOnly → s.contentType b ≠ .unknown →
      (s.complexTypeTree t).map (·.contents) = (s.complexTypeTree b).map (·.contents) ∧
      ∀ d, s.complexTypeTree b = .ok d → d.mixed = decide (s.contentType b = .mixed)) ∧
    (s.contentType b = .textOnly →
      (s.complexTypeTree t).map (·.contents) = .ok (.complex .empty)) ∧
    ∀ ctx name items type, declareComplexType ctx name none items = .ok type →
      (∀ own inner, .complexContent own inner ∈ items → own = none) → type.mixed = false := by
  have hf := s.fault_eq_none
  obtain ⟨u, hu, -⟩ := TransGen.head'_iff.mp h
  have htree := hu.complexTypeTree_eq hf
  rw [Catalog.AddsNothing.content_eq_of_chain hf h] at htree
  have hcontents : (s.complexTypeTree t).map (·.contents) =
      (s.contentTree (s.content b)).map .complex := by
    rw [htree]
    cases s.contentTree (s.content b) <;> rfl
  refine ⟨hcontents, fun d hd => ?_, fun htext hknown => ⟨?_, fun d hd => ?_⟩, fun htext => ?_,
    fun ctx name items type htype hitems => mixed_of_declareComplexType htype hitems⟩
  · rw [htree] at hd
    obtain ⟨contents, -, rfl⟩ := exists_of_map_eq_ok hd
    rfl
  · rw [hcontents, Catalog.complexTypeTree_of_particles hf htext hknown]
    cases s.contentTree (s.content b) <;> rfl
  · rw [Catalog.complexTypeTree_of_particles hf htext hknown] at hd
    obtain ⟨contents, -, rfl⟩ := exists_of_map_eq_ok hd
    exact Catalog.mixed_eq_of_particles hf htext hknown
  · rw [hcontents, Catalog.content_of_textOnly hf htext]
    rfl

/-- A reminder is a note. -/
def reminder : Located ComplexType :=
  ⟨.top (.complexType 1), ⟨some ⟨none, "reminder"⟩, false,
    .complex .extension ⟨none, "note"⟩ none, []⟩⟩

/-- A last reminder is a reminder with a number. -/
def lastReminder : Located ComplexType :=
  ⟨.top (.complexType 2), ⟨some ⟨none, "lastReminder"⟩, false,
    .complex .extension ⟨none, "reminder"⟩ (some (.group ⟨.sequence, .once, []⟩)),
    [.declared ⟨⟨none, "number"⟩, .named (.xs "int")⟩ none]⟩⟩

def reminders : SchemaSet where
  documents := [⟨none, { Document.empty none with
    complexTypes := [note.value, reminder.value, lastReminder.value] }⟩]
  fault_eq_none := by decide +kernel

/-- A last reminder has the content of a note. -/
theorem bare_extension_contents_lastReminder :
    TransGen reminders.AddsNothing lastReminder note ∧
    reminders.contentType note = .elementOnly ∧
    (∃ d, reminders.complexTypeTree lastReminder = .ok d ∧ d.attributes ≠ [] ∧ d.mixed = false) ∧
    (reminders.complexTypeTree lastReminder).map (·.contents) =
      (reminders.complexTypeTree note).map (·.contents) := by
  have hlast : reminders.AddsNothing lastReminder reminder := ⟨⟨_, _, rfl, rfl⟩, rfl, rfl⟩
  have hfirst : reminders.AddsNothing reminder note := ⟨⟨_, _, rfl, rfl⟩, rfl, rfl⟩
  have hchain := (TransGen.single hlast).tail hfirst
  obtain ⟨-, hmixed, hsame, -⟩ := bare_extension_contents reminders hchain
  have htype : reminders.contentType note = .elementOnly := by decide +kernel
  have htree : (reminders.complexTypeTree lastReminder).toOption.any
      fun d => decide (d.attributes ≠ []) := by decide +kernel
  obtain ⟨d, hd, hattributes⟩ := (Option.any_eq_true _ _).mp htree
  have hd := eq_ok_of_toOption hd
  exact ⟨hchain, htype, ⟨d, hd, of_decide_eq_true hattributes, hmixed d hd⟩,
    (hsame (by simp [htype]) (by simp [htype])).1⟩

/-- A remark has anything in its text, and a memo is a remark. -/
def memoText : String :=
  "<s:schema xmlns:s=\"http://www.w3.org/2001/XMLSchema\"><s:complexType name=\"remark\"" ++
    " mixed=\"true\"><s:choice><s:any/></s:choice></s:complexType><s:complexType name=\"memo\">" ++
    "<s:complexContent><s:extension base=\"remark\"/></s:complexContent></s:complexType></s:schema>"

/-- A memo adds nothing to a remark, but there is no text in it. -/
theorem bare_extension_differs_memo : ∃ set t u d d',
    compile memoText (.ofTexts []) = .ok set ∧ set.complexNamed ⟨none, "memo"⟩ = some t ∧
    set.AddsNothing t u ∧ set.complexTypeTree t = .ok d ∧ set.complexTypeTree u = .ok d' ∧
    d.mixed = false ∧ d'.mixed = true := by
  have hset : (compile memoText (.ofTexts [])).toOption.any fun set =>
      (set.complexNamed ⟨none, "memo"⟩).any fun t => (set.bareBase? t).any fun u =>
        (set.complexTypeTree t).toOption.any fun d => (set.complexTypeTree u).toOption.any fun d' =>
          !d.mixed && d'.mixed := by
    decide +kernel
  obtain ⟨set, hset, h⟩ := (Option.any_eq_true _ _).mp hset
  obtain ⟨t, ht, h⟩ := (Option.any_eq_true _ _).mp h
  obtain ⟨u, hu, h⟩ := (Option.any_eq_true _ _).mp h
  obtain ⟨d, hd, h⟩ := (Option.any_eq_true _ _).mp h
  obtain ⟨d', hd', h⟩ := (Option.any_eq_true _ _).mp h
  have hmixed := (Bool.and_eq_true _ _).mp h
  exact ⟨set, t, u, d, d', eq_ok_of_toOption hset, ht, Catalog.addsNothing_of_bareBase? hu,
    eq_ok_of_toOption hd, eq_ok_of_toOption hd', Bool.not_eq_true' _ |>.mp hmixed.1, hmixed.2⟩

end SchemaSet

end SchemaShapes
