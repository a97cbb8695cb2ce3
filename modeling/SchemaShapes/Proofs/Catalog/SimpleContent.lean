import SchemaShapes.Proofs.Catalog.Components
import SchemaShapes.Proofs.Catalog.Views

/-! Chains of simple content. Simple content is derived from the type that its base names, and that
type may have simple content again. From every type of a schema set such bases lead to an end: a
builtin type, a simple type of the documents or a complex type whose content is not simple. The end
says whether the content is text, and it gives the code of the text unless a simple type is written
inside the content of a type on the way. -/
namespace SchemaShapes

open Schema

/-- The content of a complex type is simple. -/
def Schema.ComplexType.HasSimpleContent (t : ComplexType) : Prop :=
  ∃ method base type, t.content = .simple method base type

/-- The simple type that is written inside simple content. -/
def Schema.ComplexType.inlineType (t : ComplexType) : Option SimpleType :=
  match t.content with
  | .simple _ _ type => type
  | _ => none

namespace Catalog

/-- What the bases of simple content lead to in the end. -/
inductive TextEnd where
  | builtin (code : TypeCode)
  | simple (type : SimpleType)
  | complex (type : Located ComplexType)

/-- The types with simple content that are met from a type on, itself included, and what ends their
chain. A name means a builtin type before any type of the documents, and a complex type of these
before a simple one. -/
inductive TextChain (c : Catalog) :
    Located ComplexType → List (Located ComplexType) → TextEnd → Prop
  | complex {t : Located ComplexType} (h : ¬t.value.HasSimpleContent) :
    TextChain c t [] (.complex t)
  | builtin {t : Located ComplexType} {method : Markup.Method} {base : QName}
    {type : Option SimpleType} {code : TypeCode} (ht : t.value.content = .simple method base type)
    (hb : TypeCode.builtin? base = some code) : TextChain c t [t] (.builtin code)
  | simple {t : Located ComplexType} {method : Markup.Method} {base : QName}
    {type : Option SimpleType} {u : SimpleType} (ht : t.value.content = .simple method base type)
    (hcomplex : c.complexNamed base = none) (hb : TypeCode.builtin? base = none)
    (hu : c.findSimpleType base = some u) : TextChain c t [t] (.simple u)
  | onward {t u : Located ComplexType} {ts : List (Located ComplexType)} {e : TextEnd}
    {method : Markup.Method} {base : QName} {type : Option SimpleType}
    (ht : t.value.content = .simple method base type) (hu : c.complexNamed base = some u)
    (h : TextChain c u ts e) : TextChain c t (t :: ts) e

/-- Content that leads to this end is text. -/
def TextEnd.IsText (c : Catalog) : TextEnd → Prop
  | .complex t => c.contentType t = .textOnly
  | _ => True

/-- The code of text that leads to this end. -/
def TextEnd.code (c : Catalog) : TextEnd → TypeCode
  | .builtin code => code
  | .simple t => c.simpleTypeCode t
  | .complex _ => .string

variable {c : Catalog}

/-! ### What bases mean -/

theorem complexNamed_of_builtin {q : QName} {code : TypeCode}
    (h : TypeCode.builtin? q = some code) : c.complexNamed q = none := by
  have hany : q ≠ anyTypeName := by
    rintro rfl
    have hnone : TypeCode.builtin? anyTypeName = none := by decide
    rw [hnone] at h
    cases h
  rw [complexNamed, if_neg hany, h, Option.isSome_some, if_pos rfl]

theorem namedType_of_builtin {q : QName} {code : TypeCode} (h : TypeCode.builtin? q = some code) :
    c.namedType q = .simple code := by
  simp only [namedType, complexNamed_of_builtin h, h]

theorem namedType_of_findSimpleType {q : QName} {t : SimpleType} (hc : c.complexNamed q = none)
    (hb : TypeCode.builtin? q = none) (ht : c.findSimpleType q = some t) :
    c.namedType q = .simple (c.simpleTypeCode t) := by
  simp only [namedType, hc, hb, ht]

/-- A name that means a type means a complex one, a builtin one or a simple one of the documents. -/
theorem exists_of_namedType {q : QName} (h : c.namedType q ≠ .unknown) :
    (∃ u, c.complexNamed q = some u) ∨ (∃ code, TypeCode.builtin? q = some code) ∨
      ∃ t, c.complexNamed q = none ∧ TypeCode.builtin? q = none ∧ c.findSimpleType q = some t := by
  cases hc : c.complexNamed q with
  | some u => exact .inl ⟨u, rfl⟩
  | none =>
    cases hb : TypeCode.builtin? q with
    | some code => exact .inr (.inl ⟨code, rfl⟩)
    | none =>
      cases ht : c.findSimpleType q with
      | some t => exact .inr (.inr ⟨t, rfl, rfl, rfl⟩)
      | none => exact absurd (by simp only [namedType, hc, hb, ht]) h

/-! ### Chains -/

/-- From every type of a catalog without faults the bases of simple content lead to an end. -/
theorem exists_textChain (hf : c.fault = none) {t : Located ComplexType}
    (ht : .complexType t ∈ c.nodes) : ∃ ts e, c.TextChain t ts e := by
  induction t using (derivesFrom_wellFounded hf).induction with
  | _ t ih =>
    by_cases hsimple : t.value.HasSimpleContent
    · obtain ⟨method, base, type, hcontent⟩ := hsimple
      have hbase := (base_of_simple hcontent).1
      have hmeans : c.namedType base ≠ .unknown :=
        (holds_of_mem_nodes ht).resolves hf (.baseOfComplex hbase)
      rcases exists_of_namedType hmeans with ⟨u, hu⟩ | ⟨code, hb⟩ | ⟨u, hc, hb, hu⟩
      · obtain ⟨ts, e, h⟩ := ih u ⟨base, hbase, hu⟩ (mem_nodes_of_edge ht (.base hbase hu))
        exact ⟨t :: ts, e, .onward hcontent hu h⟩
      · exact ⟨[t], .builtin code, .builtin hcontent hb⟩
      · exact ⟨[t], .simple u, .simple hcontent hc hb hu⟩
    · exact ⟨[], .complex t, .complex hsimple⟩

/-- Content is text exactly if its chain ends in text. -/
theorem TextChain.contentType_eq_textOnly_iff (hf : c.fault = none) {t : Located ComplexType}
    {ts : List (Located ComplexType)} {e : TextEnd} (h : c.TextChain t ts e) :
    c.contentType t = .textOnly ↔ e.IsText c := by
  induction h with
  | complex => exact Iff.rfl
  | builtin ht hb =>
    rw [contentType_eq hf, ht]
    simp [namedType_of_builtin hb, TextEnd.IsText]
  | simple ht hcomplex hb hu =>
    rw [contentType_eq hf, ht]
    simp [namedType_of_findSimpleType hcomplex hb hu, TextEnd.IsText]
  | onward ht hu _ ih =>
    rw [← ih, contentType_eq hf, ht]
    simp [namedType_eq_complex_iff.mpr hu]

/-- Simple content that is not text makes no sense. -/
theorem contentType_of_hasSimpleContent (hf : c.fault = none) {t : Located ComplexType}
    (h : t.value.HasSimpleContent) (htext : c.contentType t ≠ .textOnly) :
    c.contentType t = .unknown := by
  obtain ⟨method, base, type, hcontent⟩ := h
  rw [contentType_eq hf, hcontent] at htext ⊢
  dsimp only at htext ⊢
  split at htext
  · exact absurd rfl htext
  · split_ifs at htext ⊢
    · exact absurd rfl htext
    · rfl
  · rfl

/-- The code of text is that of the first simple type that is written inside the content of a type
on the way, or else that of the end. -/
theorem TextChain.textCode_eq (hf : c.fault = none) {t : Located ComplexType}
    {ts : List (Located ComplexType)} {e : TextEnd} (h : c.TextChain t ts e) :
    c.textCode t =
      ((ts.findSome? (·.value.inlineType)).map c.simpleTypeCode).getD (e.code c) := by
  induction h with
  | @complex t h =>
    rw [Catalog.textCode_eq hf]
    cases hc : t.value.content with
    | simple method base type => exact absurd ⟨method, base, type, hc⟩ h
    | _ => rfl
  | @builtin _ _ _ type _ ht hb =>
    rw [Catalog.textCode_eq hf, List.findSome?_singleton, ComplexType.inlineType, ht]
    cases type with
    | some type => rfl
    | none => simp [namedType_of_builtin hb, TextEnd.code]
  | @simple _ _ _ type _ ht hcomplex hb hu =>
    rw [Catalog.textCode_eq hf, List.findSome?_singleton, ComplexType.inlineType, ht]
    cases type with
    | some type => rfl
    | none => simp [namedType_of_findSimpleType hcomplex hb hu, TextEnd.code]
  | @onward _ _ _ _ _ _ type ht hu _ ih =>
    rw [Catalog.textCode_eq hf, List.findSome?_cons, ComplexType.inlineType, ht]
    cases type with
    | some type => rfl
    | none => simp [namedType_eq_complex_iff.mpr hu, ih]

end Catalog

end SchemaShapes
