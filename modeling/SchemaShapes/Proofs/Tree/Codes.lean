import SchemaShapes.Proofs.Tree.ContentType

/-! Codes of text. A simple type has the code of the builtin type that its restrictions lead to,
through types with and without names, and the code of any atomic value if they lead to a list or a
union. Text of a complex type has the code of the first simple type that is written inside simple
content on the way up its bases, or else of what these lead to. In a schema set no way leads to a
name without a definition. -/
namespace SchemaShapes

open Relation (ReflTransGen)
open Schema

/-- The builtin types that are any atomic value. -/
theorem TypeCode.builtin?_eq_anyAtomicType_iff {q : QName} :
    builtin? q = some .anyAtomicType ↔ q = .xs "anySimpleType" ∨ q = .xs "anyAtomicType" := by
  constructor
  · intro h
    have hcodes : ∀ x ∈ builtins, x.2 = .anyAtomicType →
        x.1 = "anySimpleType" ∨ x.1 = "anyAtomicType" := by decide
    unfold builtin? at h
    split_ifs at h with hxs
    obtain ⟨x, hx, hcode⟩ := Option.map_eq_some_iff.mp h
    have hname : x.1 = q.name := by simpa using List.find?_some hx
    obtain ⟨ns, name⟩ := q
    obtain rfl : ns = some xsNamespace := by simpa [QName.isXs] using hxs
    obtain rfl := hname
    rcases hcodes x (List.mem_of_find?_eq_some hx) hcode with hx | hx <;> rw [hx]
    · exact .inl rfl
    · exact .inr rfl
  · rintro (rfl | rfl) <;> decide

namespace Catalog

/-- What restrictions lead to in the end. -/
inductive RestrictionEnd where
  | builtin (name : QName) (code : TypeCode)
  | list
  | union

/-- The end that the restrictions of a simple type lead to, one after the other. A name that is
neither builtin nor defined is no end. -/
inductive RestrictionEnds (c : Catalog) : SimpleType → RestrictionEnd → Prop
  | builtin {name : Option QName} {q : QName} {code : TypeCode}
    (hq : TypeCode.builtin? q = some code) :
    RestrictionEnds c (.restriction name q) (.builtin q code)
  | list {name : Option QName} : RestrictionEnds c (.list name) .list
  | union {name : Option QName} : RestrictionEnds c (.union name) .union
  | onward {t u : SimpleType} {e : RestrictionEnd} (htu : c.RestrictedFrom t u)
    (h : RestrictionEnds c u e) : RestrictionEnds c t e

/-- The code of the types that lead to an end. -/
def RestrictionEnd.code : RestrictionEnd → TypeCode
  | .builtin _ code => code
  | .list => .anyAtomicType
  | .union => .anyAtomicType

/-- An end is a list, a union or a builtin type that is any simple or any atomic value. -/
def RestrictionEnd.IsAny : RestrictionEnd → Prop
  | .builtin q _ => q = .xs "anySimpleType" ∨ q = .xs "anyAtomicType"
  | .list => True
  | .union => True

variable {c : Catalog}

/-! ### Restrictions -/

theorem holds_of_restrictedFrom {t u : SimpleType} (ht : c.Holds (.simpleType t))
    (h : c.RestrictedFrom t u) : c.Holds (.simpleType u) := by
  cases h with
  | inside => exact .part ht .refinement
  | named hq hu => exact .simpleType (findSimpleType_eq_some hu).1

/-- A name that stands for a simple type has a definition if it is not builtin. -/
theorem exists_findSimpleType (hf : c.fault = none) {x : Component} (hx : c.Holds x) {q : QName}
    (hq : x.Uses ⟨.simpleType, q⟩) (hb : TypeCode.builtin? q = none) :
    ∃ u, c.findSimpleType q = some u := by
  have hmeans : (TypeCode.builtin? q).isSome ∨ (c.findSimpleType q).isSome := hx.resolves hf hq
  rw [hb, Option.isSome_none, Bool.false_eq_true, false_or] at hmeans
  exact Option.isSome_iff_exists.mp hmeans

/-- The restrictions of every simple type of a catalog without faults lead to an end. -/
theorem exists_restrictionEnds (hf : c.fault = none) {t : SimpleType}
    (ht : c.Holds (.simpleType t)) : ∃ e, c.RestrictionEnds t e := by
  induction t using (restrictedFrom_wellFounded hf).induction with
  | _ t ih =>
    have honward : ∀ u, c.RestrictedFrom t u → ∃ e, c.RestrictionEnds t e := by
      intro u hu
      obtain ⟨e, h⟩ := ih u hu (holds_of_restrictedFrom ht hu)
      exact ⟨e, .onward hu h⟩
    cases t with
    | restriction name q =>
      cases hq : TypeCode.builtin? q with
      | some code => exact ⟨_, .builtin hq⟩
      | none =>
        obtain ⟨u, hu⟩ := exists_findSimpleType hf ht .baseOfSimple hq
        exact honward u (.named hq hu)
    | refinement name u => exact honward u .inside
    | list name => exact ⟨_, .list⟩
    | union name => exact ⟨_, .union⟩

/-- A name that stands for a simple type leads to an end like a restriction of it. -/
theorem exists_restrictionEnds_of_uses (hf : c.fault = none) {x : Component} (hx : c.Holds x)
    {q : QName} (hq : x.Uses ⟨.simpleType, q⟩) :
    ∃ e, c.RestrictionEnds (.restriction none q) e := by
  cases hb : TypeCode.builtin? q with
  | some code => exact ⟨_, .builtin hb⟩
  | none =>
    obtain ⟨u, hu⟩ := exists_findSimpleType hf hx hq hb
    obtain ⟨e, he⟩ := exists_restrictionEnds hf (.simpleType (findSimpleType_eq_some hu).1)
    exact ⟨e, .onward (.named hb hu) he⟩

/-- A simple type has the code of the end that its restrictions lead to. -/
theorem RestrictionEnds.simpleTypeCode_eq (hf : c.fault = none) {t : SimpleType}
    {e : RestrictionEnd} (h : c.RestrictionEnds t e) : c.simpleTypeCode t = e.code := by
  induction h with
  | builtin hq => rw [Catalog.simpleTypeCode_eq]; exact namedSimpleCode_of_builtin hq
  | list => rfl
  | union => rfl
  | onward htu _ ih =>
    rw [Catalog.simpleTypeCode_eq, ← ih]
    cases htu with
    | inside => rfl
    | named hq hu => simp only [namedSimpleCode_eq hf, hq, hu]

theorem RestrictionEnds.code_eq_anyAtomicType_iff {t : SimpleType} {e : RestrictionEnd}
    (h : c.RestrictionEnds t e) : e.code = .anyAtomicType ↔ e.IsAny := by
  induction h with
  | builtin hq =>
    rw [RestrictionEnd.IsAny, ← TypeCode.builtin?_eq_anyAtomicType_iff, hq, Option.some.injEq,
      RestrictionEnd.code]
  | list => exact iff_of_true rfl trivial
  | union => exact iff_of_true rfl trivial
  | onward _ _ ih => exact ih

/-- Every name along the restrictions of a simple type means something. -/
theorem defined_of_restrictions (hf : c.fault = none) {t : SimpleType}
    (ht : c.Holds (.simpleType t)) {name : Option QName} {q : QName}
    (h : ReflTransGen c.RestrictedFrom t (.restriction name q)) :
    (TypeCode.builtin? q).isSome ∨ (c.findSimpleType q).isSome := by
  have hholds : ∀ u, ReflTransGen c.RestrictedFrom t u → c.Holds (.simpleType u) := by
    intro u hu
    induction hu with
    | refl => exact ht
    | tail _ hstep ih => exact holds_of_restrictedFrom ih hstep
  exact (hholds _ h).resolves hf .baseOfSimple

/-! ### Text -/

/-- A chain that makes content text and does not end in a simple type ends in a complex type with
mixed content that has nothing in it. -/
theorem TextChain.end_mixed (hf : c.fault = none) {t u : Located ComplexType}
    {ts : List (Located ComplexType)} (ht : .complexType t ∈ c.nodes)
    (h : c.TextChain t ts (.complex u)) (htext : c.contentType t = .textOnly) :
    u.value.mixed = true ∧ ¬c.HasChildren u := by
  have hu := (h.contentType_eq_textOnly_iff hf).mp htext
  -- The induction is on the chain, and its end stays the same.
  generalize he : TextEnd.complex u = e at h
  induction h with
  | @complex t hsimple =>
    cases he
    have hcomplex : ¬c.ComplexOverSimple u := by
      intro hover
      rw [contentType_of_complexOverSimple hf hover] at htext
      cases htext
    exact (classifiedByChildren hf
      (contentType_eq_of_complex hf ht hsimple hcomplex)).textOnly.mp htext
  | builtin => cases he
  | simple => cases he
  | onward hcontent hv hchain ih =>
    have hv' := mem_nodes_of_edge ht (.base (base_of_simple hcontent).1 hv)
    exact ih hv' ((hchain.contentType_eq_textOnly_iff hf).mpr (he ▸ hu)) he

end Catalog

namespace SchemaSet

/-- Every simple type of a schema set, wherever it is written, has the code of the end that its
restrictions lead to, which is that of any atomic value exactly for a list, a union and two builtin
types. So has every name that stands for a simple type, and no name on the way is without a
definition. From every complex type the bases of simple content lead to an end; if the content is
text, its code is that of the first simple type written inside on the way or else that of the end,
where a complex type is one with mixed content and nothing in it. -/
theorem codes_of_ends (s : SchemaSet) :
    (∀ t, s.Holds (.simpleType t) →
      (∃ e, s.RestrictionEnds t e) ∧
      (∀ e, s.RestrictionEnds t e → s.simpleTypeCode t = e.code ∧
        (s.simpleTypeCode t = .anyAtomicType ↔ e.IsAny)) ∧
      ∀ name q, ReflTransGen s.RestrictedFrom t (.restriction name q) →
        (TypeCode.builtin? q).isSome ∨ (s.findSimpleType q).isSome) ∧
    (∀ x q, s.Holds x → x.Uses ⟨.simpleType, q⟩ →
      ∃ e, s.RestrictionEnds (.restriction none q) e ∧ s.namedSimpleCode q = e.code) ∧
    ∀ t, .complexType t ∈ s.nodes → (∃ ts e, s.TextChain t ts e) ∧
      (s.contentType t = .textOnly → ∀ ts e, s.TextChain t ts e →
        s.textCode t = ((ts.findSome? (·.value.inlineType)).map s.simpleTypeCode).getD
          (e.code s.toCatalog) ∧
        ∀ u, e = .complex u → u.value.mixed = true ∧ ¬s.HasChildren u) := by
  have hf := s.fault_eq_none
  refine ⟨fun t ht => ⟨Catalog.exists_restrictionEnds hf ht, fun e he => ?_,
    fun name q => Catalog.defined_of_restrictions hf ht⟩, fun x q hx hq => ?_, fun t ht => ?_⟩
  · have hcode := he.simpleTypeCode_eq hf
    exact ⟨hcode, by rw [hcode]; exact he.code_eq_anyAtomicType_iff⟩
  · obtain ⟨e, he⟩ := Catalog.exists_restrictionEnds_of_uses hf hx hq
    exact ⟨e, he, by rw [← he.simpleTypeCode_eq hf, Catalog.simpleTypeCode_eq]⟩
  · refine ⟨Catalog.exists_textChain hf ht, fun htext ts e hchain => ⟨hchain.textCode_eq hf, ?_⟩⟩
    rintro u rfl
    exact hchain.end_mixed hf ht htext

/-- A pack holds a positive number of things, but not many. -/
def packSize : SimpleType := .refinement none (.restriction none ⟨none, "count"⟩)

/-- A price is a decimal number with a currency. -/
def price : Located ComplexType :=
  ⟨.top (.complexType 0), ⟨some ⟨none, "price"⟩, false, .simple .extension (.xs "decimal") none,
    [.declared ⟨⟨none, "currency"⟩, .named (.xs "string")⟩ none]⟩⟩

/-- The price of a pack has the values of its size. -/
def packPrice : Located ComplexType :=
  ⟨.top (.complexType 1), ⟨some ⟨none, "packPrice"⟩, false,
    .simple .restriction ⟨none, "price"⟩ (some packSize), []⟩⟩

/-- An offer is the price of a pack. -/
def offer : Located ComplexType :=
  ⟨.top (.complexType 2), ⟨some ⟨none, "offer"⟩, false,
    .simple .extension ⟨none, "packPrice"⟩ none, []⟩⟩

def prices : SchemaSet where
  documents := [⟨none, { Document.empty none with
    complexTypes := [price.value, packPrice.value, offer.value]
    simpleTypes := [.restriction (some ⟨none, "count"⟩) (.xs "positiveInteger")] }⟩]
  fault_eq_none := by decide +kernel

/-- The text of an offer is a positive number, although a price ends in decimals. -/
theorem codes_of_ends_offer :
    prices.TextChain offer [offer, packPrice, price] (.builtin .decimal) ∧
    prices.RestrictionEnds packSize (.builtin (.xs "positiveInteger") .positiveInteger) ∧
    prices.contentType offer = .textOnly ∧ prices.textCode offer = .positiveInteger ∧
    prices.textCode price = .decimal := by
  have mem : ∀ i t, prices.complexTypes[i]? = some t →
      .complexType ⟨.top (.complexType i), t⟩ ∈ prices.nodes :=
    fun i t h => Catalog.mem_nodes_of_topLevel (.complexType h)
  have hpriceChain : prices.TextChain price [price] (.builtin .decimal) := .builtin rfl rfl
  have hofferChain : prices.TextChain offer [offer, packPrice, price] (.builtin .decimal) :=
    .onward rfl rfl (.onward rfl rfl hpriceChain)
  have hsize : prices.RestrictionEnds packSize
      (.builtin (.xs "positiveInteger") .positiveInteger) :=
    .onward .inside (.onward (.named rfl rfl) (.builtin rfl))
  have hoffer := mem 2 offer.value rfl
  have hprice := mem 0 price.value rfl
  have hheld : prices.Holds (.simpleType packSize) :=
    .part (Catalog.holds_of_mem_nodes (mem 1 packPrice.value rfl)) (.simpleOfContent rfl)
  obtain ⟨hsimple, -, htext⟩ := codes_of_ends prices
  have hofferText : prices.contentType offer = .textOnly :=
    (hofferChain.contentType_eq_textOnly_iff prices.fault_eq_none).mpr trivial
  have hpriceText : prices.contentType price = .textOnly :=
    (hpriceChain.contentType_eq_textOnly_iff prices.fault_eq_none).mpr trivial
  refine ⟨hofferChain, hsize, hofferText, ?_, ((htext price hprice).2 hpriceText _ _ hpriceChain).1⟩
  rw [((htext offer hoffer).2 hofferText _ _ hofferChain).1]
  exact ((hsimple packSize hheld).2.1 _ hsize).1

end SchemaSet

end SchemaShapes
